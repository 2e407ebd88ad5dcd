import MyWebSocket.Library.Transducer
import MyWebSocket.Parser.Parse

namespace MyWebSocket

open Transducer Transducer.Outcome

/-!
# The parser as a byte machine

`parse` moves a cursor over a buffer, copies payload bytes in bulk, and completes an empty
frame by stepping back over a byte it has not used yet.  This file replaces it by a machine
that reads one byte at a time (`byteMachine`) and proves the replacement exact:

* `ParseInv` is the invariant of every state between two bytes; `Reachable.inv` gives it for
  every state between two calls;
* `parse_eq_run` — from a state with the invariant, `parse` never faults, never runs out of
  fuel and returns what the byte machine computes;
* `feed_eq_run` — so does a sequence of calls, on the concatenation of the buffers; hence
  `feed_eq_parse_flatten`, the cuts are unobservable.

A frame with an empty payload is only completed when the next byte arrives.  In the machine
this is a debt (`settle`) that reading a byte pays first.
-/

/-! ### The invariant -/

/-- What holds of parser and frame between any two bytes. -/
structure ParseInv (s : ParseState) : Prop where
  notComplete : s.parser.status ≠ .complete
  payloadLen : s.parser.status = .payloadLen → 1 ≤ s.parser.byteNeed ∧ s.parser.byteNeed ≤ 8
  maskKey : s.parser.status = .maskKey →
    1 ≤ s.parser.byteNeed ∧ s.frame.maskKey.length + s.parser.byteNeed = 4
  payloadNeed : s.parser.status = .payload → s.parser.byteNeed ≤ s.frame.payloadLen
  payloadLimit : s.parser.status = .payload → limitPayloadLen < s.frame.payloadLen →
    s.parser.byteNeed = s.frame.payloadLen
  payloadKey : s.parser.status = .payload → s.frame.mask = true →
    s.frame.maskKey.length = 4 ∧
      s.parser.maskIndex = (s.frame.payloadLen - s.parser.byteNeed) % 4
  maskIndex : s.parser.status ≠ .payload ∨ s.frame.mask = false → s.parser.maskIndex = 0

theorem ParseInv.init (frame : WsFrame) : ParseInv (.init frame) := by
  constructor <;> simp [ParseState.init, Parser.init]

/-- Between frames nothing but the mask index matters. -/
theorem ParseInv.of_finAndOpcode {s : ParseState} (hst : s.parser.status = .finAndOpcode)
    (hidx : s.parser.maskIndex = 0) : ParseInv s := by
  constructor <;> simp [hst, hidx]

theorem ParseInv.switchToMask {s : ParseState} (hidx : s.parser.maskIndex = 0) :
    ParseInv (switchToMask s) := by
  unfold MyWebSocket.switchToMask
  split
  · constructor <;> simp [hidx]
  · rename_i hmask
    constructor <;> simp [hidx, hmask]

theorem ParseInv.onFinAndOpcode {s : ParseState} (h : ParseInv s)
    (hst : s.parser.status = .finAndOpcode) (b : UInt8) : ParseInv (onFinAndOpcode s b) := by
  have hidx := h.maskIndex (.inl (by simp [hst]))
  constructor <;> simp [MyWebSocket.onFinAndOpcode, hidx]

theorem ParseInv.onPayloadLenAndMask {s : ParseState} (h : ParseInv s)
    (hst : s.parser.status = .payloadLenAndMask) (b : UInt8) :
    ParseInv (onPayloadLenAndMask s b) := by
  have hidx := h.maskIndex (.inl (by simp [hst]))
  unfold MyWebSocket.onPayloadLenAndMask
  dsimp only
  split
  · exact ParseInv.switchToMask hidx
  · split <;> constructor <;> simp [hidx]

theorem ParseInv.onPayloadLen {s : ParseState} (h : ParseInv s)
    (hst : s.parser.status = .payloadLen) (b : UInt8) : ParseInv (onPayloadLen s b) := by
  have hidx := h.maskIndex (.inl (by simp [hst]))
  obtain ⟨hpos, hle⟩ := h.payloadLen hst
  rw [onPayloadLen_eq hpos]
  split
  · exact ParseInv.switchToMask hidx
  · constructor <;> simp [takeLenByte, hst, hidx]
    omega

theorem ParseInv.onMaskKey {s : ParseState} (h : ParseInv s)
    (hst : s.parser.status = .maskKey) (b : UInt8) : ParseInv (onMaskKey s b) := by
  have hidx := h.maskIndex (.inl (by simp [hst]))
  obtain ⟨hpos, hsum⟩ := h.maskKey hst
  rw [onMaskKey_eq hpos]
  split
  · constructor <;> simp [hidx]
    omega
  · constructor <;> simp [takeKeyByte, hst, hidx]
    omega

theorem ParseInv.onComplete (s : ParseState) : ParseInv (onComplete s).1 := by
  unfold MyWebSocket.onComplete
  split <;> exact ParseInv.of_finAndOpcode rfl rfl

theorem ParseInv.onLimit {s : ParseState} (h : ParseInv s)
    (hst : s.parser.status = .payload) (hlim : limitPayloadLen < s.frame.payloadLen) :
    ParseInv (onLimit s) := by
  refine ParseInv.of_finAndOpcode rfl ?_
  show s.parser.maskIndex = 0
  rcases hmask : s.frame.mask with _ | _
  · exact h.maskIndex (.inr hmask)
  · rw [(h.payloadKey hst hmask).2, h.payloadLimit hst hlim, Nat.sub_self]

/-! ### One byte of payload -/

/-- Append one payload byte, unmasked if the frame is masked. -/
def absorbByte (s : ParseState) (b : UInt8) : ParseState :=
  if s.frame.mask then
    { parser := { s.parser with
        byteNeed := s.parser.byteNeed - 1, maskIndex := (s.parser.maskIndex + 1) % 4 }
      frame := { s.frame with
        payload := s.frame.payload ++ [b ^^^ s.frame.maskKey.getD s.parser.maskIndex 0] } }
  else
    { parser := { s.parser with byteNeed := s.parser.byteNeed - 1 }
      frame := { s.frame with payload := s.frame.payload ++ [b] } }

/-- Append payload bytes one after another. -/
def absorb (s : ParseState) (bs : List UInt8) : ParseState := bs.foldl absorbByte s

@[simp] theorem absorb_nil (s : ParseState) : absorb s [] = s := rfl

@[simp] theorem absorb_cons (s : ParseState) (b : UInt8) (bs : List UInt8) :
    absorb s (b :: bs) = absorb (absorbByte s b) bs := rfl

@[simp] theorem absorbByte_status (s : ParseState) (b : UInt8) :
    (absorbByte s b).parser.status = s.parser.status := by
  unfold absorbByte; split <;> rfl

@[simp] theorem absorbByte_byteNeed (s : ParseState) (b : UInt8) :
    (absorbByte s b).parser.byteNeed = s.parser.byteNeed - 1 := by
  unfold absorbByte; split <;> rfl

@[simp] theorem absorbByte_isContinuation (s : ParseState) (b : UInt8) :
    (absorbByte s b).parser.isContinuation = s.parser.isContinuation := by
  unfold absorbByte; split <;> rfl

@[simp] theorem absorbByte_mask (s : ParseState) (b : UInt8) :
    (absorbByte s b).frame.mask = s.frame.mask := by
  unfold absorbByte; split <;> rfl

@[simp] theorem absorbByte_maskKey (s : ParseState) (b : UInt8) :
    (absorbByte s b).frame.maskKey = s.frame.maskKey := by
  unfold absorbByte; split <;> rfl

@[simp] theorem absorbByte_payloadLen (s : ParseState) (b : UInt8) :
    (absorbByte s b).frame.payloadLen = s.frame.payloadLen := by
  unfold absorbByte; split <;> rfl

theorem ParseInv.absorbByte {s : ParseState} (h : ParseInv s)
    (hst : s.parser.status = .payload) (hlim : s.frame.payloadLen ≤ limitPayloadLen)
    (hneed : 1 ≤ s.parser.byteNeed) (b : UInt8) : ParseInv (absorbByte s b) := by
  have hle := h.payloadNeed hst
  rcases hmask : s.frame.mask with _ | _
  · have hidx := h.maskIndex (.inr hmask)
    constructor <;> simp [MyWebSocket.absorbByte, hst, hmask, hidx] <;> omega
  · obtain ⟨hkey, hidx⟩ := h.payloadKey hst hmask
    constructor <;> simp [MyWebSocket.absorbByte, hst, hmask, hkey, hidx] <;> omega

/-! ### The machine -/

/-- An empty frame whose completion waits for the next byte. -/
def Pending (s : ParseState) : Prop :=
  s.parser.status = .payload ∧ s.parser.byteNeed = 0 ∧ s.frame.payloadLen ≤ limitPayloadLen

instance (s : ParseState) : Decidable (Pending s) := by unfold Pending; infer_instance

/-- Complete a pending empty frame. -/
def settle (s : ParseState) : ParseState × List WsFrame :=
  if Pending s then onComplete s else (s, [])

/-- One byte of payload, with the completion of the frame at its last byte. -/
def payloadByte (s : ParseState) (b : UInt8) : ParseState × List WsFrame :=
  if (absorbByte s b).parser.byteNeed = 0 then onComplete (absorbByte s b)
  else (absorbByte s b, [])

/-- What a state with no pending frame does with a byte. -/
def consume (s : ParseState) (b : UInt8) : ParseState × List WsFrame × Option WsParseErr :=
  match s.parser.status with
  | .finAndOpcode => (onFinAndOpcode s b, [], none)
  | .payloadLenAndMask => (onPayloadLenAndMask s b, [], none)
  | .payloadLen => (onPayloadLen s b, [], none)
  | .maskKey => (onMaskKey s b, [], none)
  | .payload =>
    if limitPayloadLen < s.frame.payloadLen then (onLimit s, [], some .invalidPayloadLen)
    else ((payloadByte s b).1, (payloadByte s b).2, none)
  | .complete => ((onComplete s).1, (onComplete s).2, none)

/-- **The byte machine.** -/
def byteMachine : Transducer ParseState UInt8 WsFrame WsParseErr where
  step s b :=
    ((consume (settle s).1 b).1, (settle s).2 ++ (consume (settle s).1 b).2.1,
      (consume (settle s).1 b).2.2)

theorem onComplete_status (s : ParseState) :
    (onComplete s).1.parser.status = .finAndOpcode := by
  unfold onComplete; split <;> rfl

theorem settle_of_not_pending {s : ParseState} (h : ¬ Pending s) : settle s = (s, []) :=
  if_neg h

theorem settle_of_pending {s : ParseState} (h : Pending s) : settle s = onComplete s :=
  if_pos h

theorem not_pending_of_status {s : ParseState} (h : s.parser.status ≠ .payload) :
    ¬ Pending s := fun hp => h hp.1

theorem not_pending_onComplete (s : ParseState) : ¬ Pending (onComplete s).1 :=
  not_pending_of_status (by simp [onComplete_status])

theorem not_pending_settle (s : ParseState) : ¬ Pending (settle s).1 := by
  by_cases h : Pending s
  · rw [settle_of_pending h]
    exact not_pending_onComplete s
  · rw [settle_of_not_pending h]
    exact h

/-- The machine's debt is the pending empty frame. -/
def byteSettling : byteMachine.Settling where
  settle := settle
  settle_idem s := settle_of_not_pending (not_pending_settle s)
  step_settle s b := by
    simp [byteMachine, settle_of_not_pending (not_pending_settle s)]

theorem ParseInv.settle {s : ParseState} (h : ParseInv s) : ParseInv (settle s).1 := by
  by_cases hp : Pending s
  · rw [settle_of_pending hp]
    exact ParseInv.onComplete s
  · rw [settle_of_not_pending hp]
    exact h

/-- A state with nothing pending needs at least one more byte of an admissible payload. -/
theorem one_le_byteNeed {s : ParseState} (hst : s.parser.status = .payload)
    (hlim : s.frame.payloadLen ≤ limitPayloadLen) (hp : ¬ Pending s) :
    1 ≤ s.parser.byteNeed := by
  by_contra hneed
  exact hp ⟨hst, by omega, hlim⟩

theorem ParseInv.consume {s : ParseState} (h : ParseInv s) (hp : ¬ Pending s) (b : UInt8) :
    ParseInv (consume s b).1 := by
  unfold MyWebSocket.consume
  split
  case h_1 hst => exact h.onFinAndOpcode hst b
  case h_2 hst => exact h.onPayloadLenAndMask hst b
  case h_3 hst => exact h.onPayloadLen hst b
  case h_4 hst => exact h.onMaskKey hst b
  case h_5 hst =>
    split
    · rename_i hlim
      exact h.onLimit hst hlim
    · rename_i hlim
      have hneed := one_le_byteNeed hst (by omega) hp
      show ParseInv (payloadByte s b).1
      unfold payloadByte
      split
      · exact ParseInv.onComplete _
      · exact h.absorbByte hst (by omega) hneed b
  case h_6 hst => exact absurd hst h.notComplete

/-- **The invariant is kept by every byte.** -/
theorem ParseInv.step {s : ParseState} (b : UInt8) (h : ParseInv s) :
    ParseInv (byteMachine.step s b).1 :=
  h.settle.consume (not_pending_settle s) b

theorem ParseInv.run {s : ParseState} (h : ParseInv s) (bs : List UInt8) :
    ParseInv (byteMachine.run s bs).state :=
  byteMachine.run_invariant (fun _ b h => ParseInv.step b h) h bs

/-! ### Bulk copies are runs -/

/-- Reading payload bytes up to the end of the frame, in one run. -/
theorem run_absorb {s : ParseState} {bs : List UInt8} (hst : s.parser.status = .payload)
    (hlim : s.frame.payloadLen ≤ limitPayloadLen) (hne : bs ≠ [])
    (hlen : bs.length ≤ s.parser.byteNeed) :
    byteMachine.run s bs =
      if s.parser.byteNeed = bs.length then
        ⟨(onComplete (absorb s bs)).1, (onComplete (absorb s bs)).2, none, bs.length⟩
      else ⟨absorb s bs, [], none, bs.length⟩ := by
  induction bs generalizing s with
  | nil => exact absurd rfl hne
  | cons b bs ih =>
    simp only [List.length_cons] at hlen
    have hp : ¬ Pending s := fun hp => by have := hp.2.1; omega
    -- nothing is pending while payload is missing, so the byte is absorbed
    have hone : byteMachine.one s b = ⟨(payloadByte s b).1, (payloadByte s b).2, none, 1⟩ := by
      have hnlim : ¬ limitPayloadLen < s.frame.payloadLen := by omega
      simp [one, byteMachine, settle_of_not_pending hp, consume, hst, hnlim]
    rw [run_cons, hone, andThen_of_none rfl]
    have hneed : (absorbByte s b).parser.byteNeed = s.parser.byteNeed - 1 := by simp
    by_cases hbs : bs = []
    · subst hbs
      have hlast : s.parser.byteNeed - 1 = 0 ↔ s.parser.byteNeed = 1 := by omega
      by_cases h1 : s.parser.byteNeed = 1 <;> simp [payloadByte, hlast, h1]
    · -- more bytes follow, so this one is not the frame's last
      have hpos : 0 < bs.length := List.length_pos_of_ne_nil hbs
      have hmore : payloadByte s b = (absorbByte s b, []) := by
        rw [payloadByte, if_neg (by omega)]
      have hiff : s.parser.byteNeed - 1 = bs.length ↔ s.parser.byteNeed = bs.length + 1 := by
        omega
      rw [hmore, ih (by simpa using hst) (by simpa using hlim) hbs
        (by show bs.length ≤ (absorbByte s b).parser.byteNeed; omega)]
      by_cases h : s.parser.byteNeed = bs.length + 1 <;>
        simp [hiff, h, Nat.add_comm 1]

theorem readAt_append (pre : List UInt8) (b : UInt8) (post : List UInt8) :
    readAt (pre ++ b :: post) pre.length = .ok b := by
  simp [readAt]

/-- The unmasking loop is `absorb` on a masked frame. -/
theorem pushUnmasked_append {s : ParseState} (hmask : s.frame.mask = true)
    (hkey : s.frame.maskKey.length = 4) (hidx : s.parser.maskIndex < 4)
    (pre bs post : List UInt8) :
    pushUnmasked (pre ++ (bs ++ post)) s.frame.maskKey bs.length pre.length s.parser.maskIndex
        s.frame.payload =
      .ok ((absorb s bs).frame.payload, (absorb s bs).parser.maskIndex) := by
  induction bs generalizing s pre with
  | nil => rfl
  | cons b bs ih =>
    have hk : maskKeyAt s.frame.maskKey s.parser.maskIndex =
        .ok (s.frame.maskKey.getD s.parser.maskIndex 0) := by
      have hlt : s.parser.maskIndex < s.frame.maskKey.length := by omega
      simp [maskKeyAt, List.getElem?_eq_getElem hlt]
    -- the rest is copied from one byte further on, with the key index moved on
    have hrest := ih (s := absorbByte s b) (by simpa using hmask) (by simpa using hkey)
      (by simp only [absorbByte, hmask, if_true]; omega) (pre ++ [b])
    simp only [absorbByte, hmask, if_true, List.append_assoc, List.singleton_append,
      List.length_append, List.length_singleton, Int.natCast_add, Int.natCast_one] at hrest
    simp only [List.cons_append, List.length_cons, pushUnmasked, readAt_append, hk, absorb_cons,
      absorbByte, hmask, if_true, bind, Except.bind]
    exact hrest

/-- The range insertion is `absorb` on an unmasked frame. -/
theorem insertRange_append {s : ParseState} (hmask : s.frame.mask = false)
    (pre bs post : List UInt8) :
    insertRange (pre ++ (bs ++ post)) bs.length pre.length s.frame.payload =
      .ok (absorb s bs).frame.payload := by
  induction bs generalizing s pre with
  | nil => rfl
  | cons b bs ih =>
    have hrest := ih (s := absorbByte s b) (by simpa using hmask) (pre ++ [b])
    simp only [absorbByte, hmask, List.append_assoc, List.singleton_append, List.length_append,
      List.length_singleton, Int.natCast_add, Int.natCast_one] at hrest
    simp only [List.cons_append, List.length_cons, insertRange, readAt_append, absorb_cons,
      absorbByte, hmask, bind, Except.bind]
    exact hrest

/-- What `absorb` leaves in parser and frame: only the counters and the payload move. -/
theorem absorb_eq (s : ParseState) (bs : List UInt8) :
    absorb s bs =
      { parser := { s.parser with
          byteNeed := s.parser.byteNeed - bs.length
          maskIndex := (absorb s bs).parser.maskIndex }
        frame := { s.frame with payload := (absorb s bs).frame.payload } } := by
  induction bs generalizing s with
  | nil => rfl
  | cons b bs ih =>
    rw [absorb_cons, ih (absorbByte s b)]
    unfold absorbByte
    split <;> simp [Nat.sub_sub, Nat.add_comm]

theorem absorb_maskIndex_of_not_mask {s : ParseState} (hmask : s.frame.mask = false)
    (bs : List UInt8) : (absorb s bs).parser.maskIndex = s.parser.maskIndex := by
  induction bs generalizing s with
  | nil => rfl
  | cons b bs ih =>
    rw [absorb_cons, ih (by simpa using hmask)]
    simp [absorbByte, hmask]

/-- Copying the bytes between `pre` and `post` is absorbing them. -/
theorem copyPayload_append {s : ParseState} (h : ParseInv s) (hst : s.parser.status = .payload)
    (pre bs post : List UInt8) (fired : List WsFrame) :
    copyPayload (pre ++ (bs ++ post)) ⟨s, pre.length, fired⟩ bs.length =
      .ok ((absorb s bs).frame.payload, (absorb s bs).parser.maskIndex) := by
  rcases hmask : s.frame.mask with _ | _
  · have hins := insertRange_append hmask pre bs post
    simp [copyPayload, hmask, hins, absorb_maskIndex_of_not_mask, bind, Except.bind, pure,
      Except.pure]
  · obtain ⟨hkey, hidx⟩ := h.payloadKey hst hmask
    have hpush := pushUnmasked_append hmask hkey (by omega) pre bs post
    simp [copyPayload, hmask, hpush]

/-- After the copy the state is the absorbed one, completed if nothing is missing. -/
theorem afterCopy_absorb (s : ParseState) (bs : List UInt8) (ch : Int) (fired : List WsFrame) :
    afterCopy ⟨s, ch, fired⟩ bs.length (absorb s bs).frame.payload (absorb s bs).parser.maskIndex =
      if s.parser.byteNeed - bs.length = 0 then
        ⟨(onComplete (absorb s bs)).1, ch + bs.length - 1,
          fired ++ (onComplete (absorb s bs)).2⟩
      else ⟨absorb s bs, ch + bs.length - 1, fired⟩ := by
  simp only [afterCopy, ← absorb_eq s bs]

/-- The `payload` case once the limit check has passed: it takes all it needs, or all there
    is. -/
theorem onPayload_eq {s : ParseState} (h : ParseInv s) (hst : s.parser.status = .payload)
    (hlim : s.frame.payloadLen ≤ limitPayloadLen) (pre bs post : List UInt8)
    (hbs : bs.length = min (bs.length + post.length) s.parser.byteNeed)
    (fired : List WsFrame) :
    onPayload (pre ++ (bs ++ post)) ⟨s, pre.length, fired⟩ =
      .ok (.next (if s.parser.byteNeed - bs.length = 0 then
          ⟨(onComplete (absorb s bs)).1, (pre.length : Int) + bs.length - 1,
            fired ++ (onComplete (absorb s bs)).2⟩
        else ⟨absorb s bs, (pre.length : Int) + bs.length - 1, fired⟩)) := by
  have hread : min (((pre ++ (bs ++ post)).length : Int) - pre.length).toNat s.parser.byteNeed =
      bs.length := by
    rw [List.length_append, List.length_append]
    omega
  have hnlim : ¬ limitPayloadLen < s.frame.payloadLen := by omega
  simp only [onPayload, if_neg hnlim, hread, copyPayload_append h hst, bind, Except.bind, pure,
    Except.pure, afterCopy_absorb]

/-! ### The loop is the machine -/

/-- A machine outcome as the result of a call whose loop stood at offset `base` with `fired`
    already reported. -/
def ofOutcome (base : Nat) (fired : List WsFrame)
    (o : Outcome ParseState WsFrame WsParseErr) : ParseResult :=
  { err := o.stop.getD .success, pos := (base : Int) + o.consumed, state := o.state,
    fired := fired ++ o.out }

theorem ofOutcome_andThen {r : Outcome ParseState WsFrame WsParseErr} (h : r.stop = none)
    (base : Nat) (fired : List WsFrame)
    (k : ParseState → Outcome ParseState WsFrame WsParseErr) :
    ofOutcome base fired (r.andThen k) =
      ofOutcome (base + r.consumed) (fired ++ r.out) (k r.state) := by
  rw [andThen_of_none h]
  simp [ofOutcome, Int.add_assoc]

/-- What one pass through the switch, standing before a non-empty `rest`, can do: return with
    the byte unread, or use some bytes `bs` of `rest`, none of them only to complete a pending
    empty frame. -/
def PassOf (s : ParseState) (pre rest : List UInt8) (fired : List WsFrame) : Prop :=
  (∃ s' e, switchStatus (pre ++ rest) ⟨s, pre.length, fired⟩ =
        .ok (.ret e ⟨s', pre.length, fired⟩) ∧
      byteMachine.run s rest = ⟨s', [], some e, 0⟩) ∨
  ∃ bs tl s' out, rest = bs ++ tl ∧
    switchStatus (pre ++ rest) ⟨s, pre.length, fired⟩ =
      .ok (.next ⟨s', (pre.length : Int) + bs.length - 1, fired ++ out⟩) ∧
    byteMachine.run s rest =
      (⟨s', out, none, bs.length⟩ : Outcome _ _ _).andThen (byteMachine.run · tl) ∧
    ParseInv s' ∧ (bs = [] → Pending s ∧ ¬ Pending s')

/-- A byte that is not payload is one pass. -/
theorem pass_byte {s : ParseState} (h : ParseInv s) (hst : s.parser.status ≠ .payload)
    (pre : List UInt8) (b : UInt8) (post : List UInt8) (fired : List WsFrame) :
    PassOf s pre (b :: post) fired := by
  have hp : ¬ Pending s := not_pending_of_status hst
  have hinv : ParseInv (byteMachine.one s b).state := by
    rw [one_state]
    exact h.step b
  have hsw : switchStatus (pre ++ b :: post) ⟨s, pre.length, fired⟩ =
        .ok (.next ⟨(byteMachine.one s b).state, pre.length, fired⟩) ∧
      byteMachine.one s b = ⟨(byteMachine.one s b).state, [], none, 1⟩ := by
    unfold one switchStatus
    simp only [byteMachine, settle_of_not_pending hp, consume]
    cases hs : s.parser.status with
    | payload => exact absurd hs hst
    | complete => exact absurd hs h.notComplete
    | _ => simp [readAt_append, bind, Except.bind, pure, Except.pure]
  refine .inr ⟨[b], post, _, [], rfl, ?_, ?_, hinv, by simp⟩
  · rw [hsw.1]
    simp
  · rw [run_cons, hsw.2]
    rfl

/-- The length check fails: the call returns, the byte stays unread. -/
theorem pass_limit {s : ParseState} (hst : s.parser.status = .payload)
    (hlim : limitPayloadLen < s.frame.payloadLen) (pre : List UInt8) (b : UInt8)
    (post : List UInt8) (fired : List WsFrame) : PassOf s pre (b :: post) fired := by
  have hp : ¬ Pending s := fun hp => by have := hp.2.2; omega
  have hone : byteMachine.one s b = ⟨onLimit s, [], some .invalidPayloadLen, 0⟩ := by
    simp [one, byteMachine, settle_of_not_pending hp, consume, hst, hlim]
  refine .inl ⟨onLimit s, .invalidPayloadLen, ?_, ?_⟩
  · simp [switchStatus, hst, onPayload, hlim]
  · rw [run_cons, hone, andThen_of_stop rfl]

/-- A pending empty frame is completed and the byte is seen again. -/
theorem pass_pending {s : ParseState} (h : ParseInv s) (hp : Pending s) (pre : List UInt8)
    {rest : List UInt8} (hne : rest ≠ []) (fired : List WsFrame) : PassOf s pre rest fired := by
  obtain ⟨hst, hneed, hlim⟩ := hp
  have hpay := onPayload_eq h hst hlim pre [] rest (by simp [hneed]) fired
  have hpaid : byteSettling.paid s = ⟨(onComplete s).1, (onComplete s).2, none, 0⟩ := by
    simp [Settling.paid, byteSettling, settle_of_pending ⟨hst, hneed, hlim⟩]
  refine .inr ⟨[], rest, (onComplete s).1, (onComplete s).2, rfl, ?_, ?_,
    ParseInv.onComplete s, fun _ => ⟨⟨hst, hneed, hlim⟩, not_pending_onComplete s⟩⟩
  · rw [if_pos (by simp [hneed])] at hpay
    simpa [switchStatus, hst] using hpay
  · rw [← byteSettling.paid_andThen_run s hne, hpaid]
    rfl

/-- The bulk copy of at least one byte. -/
theorem pass_bulk {s : ParseState} (h : ParseInv s) (hst : s.parser.status = .payload)
    (hlim : s.frame.payloadLen ≤ limitPayloadLen) (hneed : s.parser.byteNeed ≠ 0)
    (pre : List UInt8) {rest : List UInt8} (hne : rest ≠ []) (fired : List WsFrame) :
    PassOf s pre rest fired := by
  -- `bs` is what the copy takes, `tl` what it leaves
  obtain ⟨bs, tl, rfl, hbs⟩ : ∃ bs tl : List UInt8, rest = bs ++ tl ∧
      bs.length = min (bs.length + tl.length) s.parser.byteNeed := by
    refine ⟨rest.take s.parser.byteNeed, rest.drop s.parser.byteNeed,
      (List.take_append_drop _ _).symm, ?_⟩
    rw [List.length_take, List.length_drop]
    omega
  -- the copy makes progress, so no fuel is spent for nothing
  have hbsne : bs ≠ [] := by
    intro hnil
    subst hnil
    have hpos : 0 < tl.length := List.length_pos_of_ne_nil hne
    simp only [List.length_nil] at hbs
    omega
  have hpay := onPayload_eq h hst hlim pre bs tl hbs fired
  have hrun := run_absorb hst hlim hbsne (by omega)
  have hinv := h.run bs
  have hdone : s.parser.byteNeed - bs.length = 0 ↔ s.parser.byteNeed = bs.length := by omega
  have hout : byteMachine.run s bs =
      ⟨(byteMachine.run s bs).state, (byteMachine.run s bs).out, none, bs.length⟩ := by
    rw [hrun]
    split <;> rfl
  refine .inr ⟨bs, tl, (byteMachine.run s bs).state, (byteMachine.run s bs).out, rfl, ?_, ?_,
    hinv, fun hnil => absurd hnil hbsne⟩
  · simp only [switchStatus, hst]
    rw [hpay, hrun]
    simp only [hdone]
    split <;> simp
  · rw [run_append, hout]

/-- **One pass.**  Every pass through the switch from a state with the invariant is one of the
    four above. -/
theorem pass_of_inv {s : ParseState} (h : ParseInv s) (pre : List UInt8) {rest : List UInt8}
    (hne : rest ≠ []) (fired : List WsFrame) : PassOf s pre rest fired := by
  -- the cases are those of the switch, the `payload` case once for each of its exits
  obtain ⟨b, post, rfl⟩ := List.exists_cons_of_ne_nil hne
  by_cases hst : s.parser.status = .payload
  · by_cases hlim : limitPayloadLen < s.frame.payloadLen
    · exact pass_limit hst hlim pre b post fired
    · by_cases hneed : s.parser.byteNeed = 0
      · exact pass_pending h ⟨hst, hneed, by omega⟩ pre hne fired
      · exact pass_bulk h hst (by omega) hneed pre hne fired
  · exact pass_byte h hst pre b post fired

/-- **The loop is the machine.**  Standing between `pre` and `rest` with enough fuel, the loop
    returns what the byte machine makes of `rest`.  The fuel pays for every byte twice, and
    once more for a pending empty frame, which costs a pass and no byte. -/
theorem parseLoop_eq {s : ParseState} (h : ParseInv s) (pre rest : List UInt8)
    (fired : List WsFrame) (fuel : Nat)
    (hfuel : 2 * rest.length + (if Pending s then 1 else 0) < fuel) :
    parseLoop (pre ++ rest) fuel ⟨s, pre.length, fired⟩ =
      .ok (ofOutcome pre.length fired (byteMachine.run s rest)) := by
  induction fuel generalizing s pre rest fired with
  | zero => omega
  | succ fuel ih =>
    by_cases hne : rest = []
    · subst hne
      simp [parseLoop, ofOutcome]
    · have hpos : 0 < rest.length := List.length_pos_of_ne_nil hne
      have hch : ¬ ((pre.length : Int) = (pre ++ rest).length) := by
        rw [List.length_append]
        omega
      simp only [parseLoop, if_neg hch]
      rcases pass_of_inv h pre hne fired with
        ⟨s', e, hsw, hrun⟩ | ⟨bs, tl, s', out, rfl, hsw, hrun, hinv, hback⟩
      · rw [hsw, hrun]
        simp [ofOutcome]
      · have hch' : (pre.length : Int) + (bs.length : Int) - 1 + 1 = (pre ++ bs).length := by
          rw [List.length_append]
          omega
        -- a pass that uses no byte settles the pending frame, and so pays for itself
        have hless : 2 * tl.length + (if Pending s' then 1 else 0) < fuel := by
          rw [List.length_append] at hfuel
          by_cases hbs : bs = []
          · obtain ⟨hp, hp'⟩ := hback hbs
            rw [if_pos hp] at hfuel
            rw [if_neg hp']
            omega
          · have := List.length_pos_of_ne_nil hbs
            split <;> omega
        have hrest := ih hinv (pre ++ bs) tl (fired ++ out) hless
        rw [hsw, hrun, ofOutcome_andThen rfl, ← List.length_append]
        simp only [hch', ← List.append_assoc]
        exact hrest

/-- **`parse` is the machine.**  From a state with the invariant a call terminates without a
    fault and returns what the byte machine computes. -/
theorem parse_eq_run {s : ParseState} (h : ParseInv s) (data : List UInt8) :
    parse s data = .ok (ofOutcome 0 [] (byteMachine.run s data)) := by
  unfold parse
  by_cases hlen : data.length = 0
  · have hnil : data = [] := List.eq_nil_of_length_eq_zero hlen
    subst hnil
    rfl
  · rw [if_neg hlen]
    exact parseLoop_eq h [] data [] _ (by split <;> omega)

/-- **Every reachable state has the invariant.** -/
theorem Reachable.inv {s : ParseState} (h : Reachable s) : ParseInv s := by
  induction h with
  | init frame => exact ParseInv.init frame
  | parse data _ hr ih =>
    rw [parse_eq_run ih data] at hr
    cases hr
    exact ih.run data

/-- `INVALID_PAYLOAD_LEN` is the only error. -/
theorem run_stop_eq {s : ParseState} {bs : List UInt8} {e : WsParseErr}
    (h : (byteMachine.run s bs).stop = some e) : e = .invalidPayloadLen := by
  refine byteMachine.run_stop (Q := (· = .invalidPayloadLen)) ?_ h
  intro s b e he
  simp only [byteMachine, consume] at he
  split at he
  case h_5 =>
    split at he
    · exact (Option.some.inj he).symm
    · exact absurd he (by simp)
  all_goals exact absurd he (by simp)

/-- **A sequence of calls is the machine** on the concatenation of the buffers. -/
theorem feed_eq_run {s : ParseState} (h : ParseInv s) (chunks : List (List UInt8)) :
    feed s chunks = .ok (ofOutcome 0 [] (byteMachine.run s chunks.flatten)) := by
  induction chunks generalizing s with
  | nil => rfl
  | cons c cs ih =>
    rw [feed, parse_eq_run h c, List.flatten_cons, run_append]
    rcases hstop : (byteMachine.run s c).stop with _ | e
    · have hok := ih (h.run c)
      simp only [bind, Except.bind, ofOutcome, hstop, Option.getD_none, if_true]
      simp only [ofOutcome] at hok
      rw [hok, andThen_of_none hstop]
      simp [pure, Except.pure]
    · obtain rfl := run_stop_eq hstop
      rw [andThen_of_stop hstop]
      simp [bind, Except.bind, ofOutcome, hstop, pure, Except.pure]

/-! ### Cuts -/

/-- **Cuts are unobservable.**  From any reachable state, feeding the pieces of a byte string
    one after another up to the first error gives what one call on the whole string gives: the
    same firings with the same frames, the same code at the same byte, and the same parser and
    frame afterwards. -/
theorem feed_eq_parse_flatten {s : ParseState} (h : Reachable s) (chunks : List (List UInt8)) :
    ∃ r, parse s chunks.flatten = .ok r ∧ feed s chunks = .ok r :=
  ⟨_, parse_eq_run h.inv _, feed_eq_run h.inv _⟩

/-- A masked two-byte message cut inside its key and again inside its payload. -/
theorem feed_eq_parse_flatten_cut :
    ∃ r, parse (.init .init) [0x81, 0x82, 1, 2, 3, 4, 0x49, 0x6B] = .ok r ∧
      feed (.init .init) [[0x81, 0x82, 1, 2], [3, 4, 0x49], [], [0x6B]] = .ok r :=
  feed_eq_parse_flatten (Reachable.init .init) [[0x81, 0x82, 1, 2], [3, 4, 0x49], [], [0x6B]]

end MyWebSocket
