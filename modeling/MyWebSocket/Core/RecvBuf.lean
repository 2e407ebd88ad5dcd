import Mathlib.Algebra.GroupWithZero.Nat
import Mathlib.Tactic.Common

namespace MyWebSocket

/-!
# Receive buffers

`m_recvBuf`, and how `recv_alloc_cb` makes it large enough: the code is the same in
`HttpServer::Session` and in `WsSession`.  The length is multiplied by three, in 64 bits, until it
reaches the suggested size.

* `growLoop_of_zero` — from the length 0, that of a buffer that has been handed over, the loop does
  not end;
* `growLoop_spec` — from any other length it ends, before a sum leaves 64 bits, if the suggested
  size is at most a third of what a `size_t` can hold.
-/

/-- A `uv_buf_t`: whether `base` is not null, and `len`. -/
structure UvBuf where
  base : Bool
  len : Nat
deriving DecidableEq, Repr

/-- `HTTP_DEFAULT_RECV_BUF_SIZE`. -/
def httpDefaultRecvBufSize : Nat := 1 <<< 16

/-- `bufSize += (bufSize << 1)` on a 64-bit `size_t`. -/
def tripled (bufSize : Nat) : Nat := (bufSize + (bufSize <<< 1) % 2 ^ 64) % 2 ^ 64

/-- `while (bufSize < suggested_size)`, `n` bounding how often the condition is tested. -/
def growLoop (suggestedSize : Nat) : Nat → Nat → Option Nat
  | 0, _ => none
  | n + 1, bufSize =>
    if bufSize < suggestedSize then growLoop suggestedSize n (tripled bufSize) else some bufSize

/-- `recv_alloc_cb` on `m_recvBuf`, unless its loop does not end: a `size_t` has `2 ^ 64` values, so
    a loop that goes on for longer comes back to one of them.  `realloc` says whether `realloc`
    returns memory. -/
def growRecvBuf (suggestedSize : Nat) (realloc : Bool) (recvBuf : UvBuf) : Option UvBuf :=
  let bufSize := recvBuf.len
  if bufSize < suggestedSize then
    -- `len` is stored before `realloc` is called
    (growLoop suggestedSize (2 ^ 64) bufSize).map fun bufSize => ⟨realloc, bufSize⟩
  else some recvBuf

theorem tripled_eq {bufSize : Nat} (h : 3 * bufSize < 2 ^ 64) : tripled bufSize = 3 * bufSize := by
  have hshift : bufSize <<< 1 = 2 * bufSize := by
    rw [Nat.shiftLeft_eq]
    omega
  rw [tripled, hshift, Nat.mod_eq_of_lt (a := 2 * bufSize) (by omega),
    Nat.mod_eq_of_lt (by omega)]
  omega

/-- **From the length 0 the loop does not end.** -/
theorem growLoop_of_zero {suggestedSize : Nat} (h : 0 < suggestedSize) (n : Nat) :
    growLoop suggestedSize n 0 = none := by
  induction n with
  | zero => rfl
  | succ n ih =>
    rw [growLoop, if_pos h]
    exact ih

/-- **From any other length it ends**, after `k` rounds in which no sum leaves 64 bits. -/
theorem growLoop_spec {suggestedSize n bufSize : Nat} (hpos : 0 < bufSize)
    (hbound : bufSize < 2 ^ 64) (hsize : suggestedSize ≤ (2 ^ 64 - 1) / 3)
    (hn : suggestedSize - bufSize < n) :
    ∃ k, growLoop suggestedSize n bufSize = some (3 ^ k * bufSize) ∧
      suggestedSize ≤ 3 ^ k * bufSize ∧ 3 ^ k * bufSize < 2 ^ 64 := by
  induction n generalizing bufSize with
  | zero => omega
  | succ n ih =>
    rw [growLoop]
    split
    next hless =>
      -- one round, and the length is still below the bound
      have htriple : tripled bufSize = 3 * bufSize := tripled_eq (by omega)
      have hmore : 0 < 3 * bufSize := by omega
      obtain ⟨k, hk, hreach, hfit⟩ := ih hmore (by omega) (by omega)
      have hpow : 3 ^ (k + 1) * bufSize = 3 ^ k * (3 * bufSize) := by
        rw [Nat.pow_succ, Nat.mul_assoc]
      rw [htriple]
      refine ⟨k + 1, ?_, ?_, ?_⟩
      · rw [hpow]
        exact hk
      · rw [hpow]
        exact hreach
      · rw [hpow]
        exact hfit
    next hless =>
      have hone : 3 ^ 0 * bufSize = bufSize := by rw [Nat.pow_zero, Nat.one_mul]
      refine ⟨0, ?_, ?_, ?_⟩
      · rw [hone]
      · rw [hone]
        omega
      · rw [hone]
        exact hbound

/-- What a call leaves: a buffer that is large enough and no smaller than before, its length the
    old one multiplied by three, exactly. -/
structure Grown (suggestedSize : Nat) (before after : UvBuf) : Prop where
  reached : suggestedSize ≤ after.len
  grown : before.len ≤ after.len
  rounds : ∃ k, after.len = 3 ^ k * before.len
  fits : after.len < 2 ^ 64

theorem growRecvBuf_spec {suggestedSize : Nat} {recvBuf : UvBuf} (realloc : Bool)
    (hpos : 0 < recvBuf.len) (hbound : recvBuf.len < 2 ^ 64)
    (hsize : suggestedSize ≤ (2 ^ 64 - 1) / 3) :
    ∃ buf, growRecvBuf suggestedSize realloc recvBuf = some buf ∧
      Grown suggestedSize recvBuf buf := by
  unfold growRecvBuf
  dsimp only
  split
  next hless =>
    have hrounds : suggestedSize - recvBuf.len < 2 ^ 64 := by omega
    obtain ⟨k, hk, hreach, hfit⟩ := growLoop_spec hpos hbound hsize hrounds
    have hmul : recvBuf.len ≤ 3 ^ k * recvBuf.len :=
      Nat.le_mul_of_pos_left _ (Nat.pow_pos (by decide))
    rw [hk]
    exact ⟨⟨realloc, 3 ^ k * recvBuf.len⟩, rfl, hreach, hmul, ⟨k, rfl⟩, hfit⟩
  next hless =>
    refine ⟨recvBuf, rfl, by omega, Nat.le_refl _, ⟨0, ?_⟩, hbound⟩
    rw [Nat.pow_zero, Nat.one_mul]

end MyWebSocket
