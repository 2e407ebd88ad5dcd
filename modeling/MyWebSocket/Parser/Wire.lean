import MyWebSocket.Parser.ByteStep

namespace MyWebSocket

open Transducer Transducer.Outcome

/-!
# The frame format on the wire

The frame format drawn in `websocket_parser.h`, as an encoder, and what the byte machine makes
of it.

* `Header` and `Frame` are the fields of the picture: FIN, the reserved bits, the opcode, an
  optional masking key, the payload length in one of the three forms able to hold it;
* `encodeHeader` and `encodeFrame` write them out as bytes;
* `run_encodeHeader` — the machine reads a header into the state `afterHeader`;
* `drain_encodeFrame` — and a frame within the limit is one `frameStep`, the completion of an
  empty frame being the machine's debt;
* `drain_encodeFrames`, `run_encodeFrames` — lists of frames fold `frameStep`.
-/

/-! ### Headers and frames -/

/-- The three forms of the payload length. -/
inductive LenForm
  | len7
  | len16
  | len64
deriving DecidableEq, Repr

/-- The lengths a form is able to hold. -/
def LenForm.Holds : LenForm → Nat → Prop
  | .len7, n => n ≤ 125
  | .len16, n => n < 2 ^ 16
  | .len64, n => n < 2 ^ 64

instance (form : LenForm) (n : Nat) : Decidable (form.Holds n) := by
  cases form <;> unfold LenForm.Holds <;> infer_instance

theorem LenForm.Holds.lt {form : LenForm} {n : Nat} (h : form.Holds n) : n < 2 ^ 64 := by
  cases form <;> simp only [LenForm.Holds] at h <;> omega

/-- A masking key is four bytes. -/
abbrev MaskingKey := { key : List UInt8 // key.length = 4 }

-- The RSV bits and the opcode are written as numerals.
instance neZero_rsv : NeZero 8 := ⟨by decide⟩

instance neZero_opcode : NeZero 16 := ⟨by decide⟩

/-- Everything in front of the payload. -/
structure Header where
  fin : Bool
  rsv : Fin 8
  opcode : Fin 16
  key : Option MaskingKey
  form : LenForm
  len : Nat
  holds : form.Holds len
deriving DecidableEq

/-- A frame, with its payload before masking. -/
structure Frame where
  fin : Bool
  rsv : Fin 8
  opcode : Fin 16
  key : Option MaskingKey
  form : LenForm
  payload : List UInt8
  holds : form.Holds payload.length
deriving DecidableEq

/-- The key of four bytes. -/
def maskingKey (a b c d : UInt8) : MaskingKey := ⟨[a, b, c, d], rfl⟩

/-- A frame with one byte of payload. -/
def Frame.ofByte (fin : Bool) (opcode : Fin 16) (key : Option MaskingKey) (b : UInt8) : Frame :=
  { fin := fin, rsv := 0, opcode := opcode, key := key, form := .len7, payload := [b],
    holds := (by decide : 1 ≤ 125) }

/-- The header in front of a frame's payload. -/
def Frame.header (f : Frame) : Header :=
  { fin := f.fin, rsv := f.rsv, opcode := f.opcode, key := f.key, form := f.form,
    len := f.payload.length, holds := f.holds }

/-! ### The encoder -/

/-- FIN, RSV and opcode. -/
def headByte (fin : Bool) (rsv : Fin 8) (opcode : Fin 16) : UInt8 :=
  UInt8.ofNat ((if fin then 128 else 0) + 16 * rsv.val + opcode.val)

/-- MASK and the 7-bit length. -/
def lenByte (mask : Bool) (n : Nat) : UInt8 := UInt8.ofNat ((if mask then 128 else 0) + n)

/-- The last `k` base-256 digits of `n`, most significant first. -/
def beBytes : Nat → Nat → List UInt8
  | 0, _ => []
  | k + 1, n => UInt8.ofNat (n / 256 ^ k) :: beBytes k n

/-- The 7-bit field and the extended length of each form. -/
def LenForm.fields : LenForm → Nat → Nat × List UInt8
  | .len7, n => (n, [])
  | .len16, n => (126, beBytes 2 n)
  | .len64, n => (127, beBytes 8 n)

/-- Xor with the key bytes in turn, starting at index `i`. -/
def maskFrom (key : List UInt8) : Nat → List UInt8 → List UInt8
  | _, [] => []
  | i, b :: bs => (b ^^^ key.getD i 0) :: maskFrom key ((i + 1) % 4) bs

/-- The bytes of a header. -/
def encodeHeader (h : Header) : List UInt8 :=
  headByte h.fin h.rsv h.opcode :: lenByte h.key.isSome (h.form.fields h.len).1 ::
    ((h.form.fields h.len).2 ++ h.key.elim [] Subtype.val)

/-- The payload as it is sent. -/
def Frame.wirePayload (f : Frame) : List UInt8 :=
  match f.key with
  | none => f.payload
  | some key => maskFrom key 0 f.payload

/-- The bytes of a frame. -/
def encodeFrame (f : Frame) : List UInt8 := encodeHeader f.header ++ f.wirePayload

/-- The bytes of several frames. -/
def encodeFrames (fs : List Frame) : List UInt8 := fs.flatMap encodeFrame

theorem getFin_headByte (fin : Bool) (rsv : Fin 8) (opcode : Fin 16) :
    getFin (headByte fin rsv opcode) = fin := by
  revert fin rsv opcode; decide

theorem getRsv_headByte (fin : Bool) (rsv : Fin 8) (opcode : Fin 16) :
    getRsv (headByte fin rsv opcode) = UInt8.ofNat rsv := by
  revert fin rsv opcode; decide

theorem getOpcode_headByte (fin : Bool) (rsv : Fin 8) (opcode : Fin 16) :
    getOpcode (headByte fin rsv opcode) = UInt8.ofNat opcode := by
  revert fin rsv opcode; decide

theorem getMask_lenByte (mask : Bool) {n : Nat} (hn : n < 128) :
    getMask (lenByte mask n) = mask := by
  have h : ∀ (mask : Bool) (n : Fin 128), getMask (lenByte mask n) = mask := by decide
  exact h mask ⟨n, hn⟩

theorem getPayloadLen_lenByte (mask : Bool) {n : Nat} (hn : n < 128) :
    getPayloadLen (lenByte mask n) = n := by
  have h : ∀ (mask : Bool) (n : Fin 128), getPayloadLen (lenByte mask n) = n := by decide
  exact h mask ⟨n, hn⟩

@[simp] theorem beBytes_length (k n : Nat) : (beBytes k n).length = k := by
  induction k with
  | zero => rfl
  | succ k ih => simp [beBytes, ih]

@[simp] theorem maskFrom_length (key : List UInt8) (i : Nat) (bs : List UInt8) :
    (maskFrom key i bs).length = bs.length := by
  induction bs generalizing i with
  | nil => rfl
  | cons b bs ih => simp [maskFrom, ih]

@[simp] theorem wirePayload_length (f : Frame) : f.wirePayload.length = f.payload.length := by
  unfold Frame.wirePayload
  split <;> simp

/-! ### Reading a header -/

/-- Between two frames: nothing read of the next one. -/
def Idle (s : ParseState) : Prop := s.parser.status = .finAndOpcode ∧ s.parser.maskIndex = 0

instance (s : ParseState) : Decidable (Idle s) := by unfold Idle; infer_instance

theorem Idle.init (frame : WsFrame) : Idle (.init frame) := ⟨rfl, rfl⟩

theorem Idle.inv {s : ParseState} (h : Idle s) : ParseInv s :=
  ParseInv.of_finAndOpcode h.1 h.2

theorem Idle.settle {s : ParseState} (h : Idle s) : settle s = (s, []) :=
  settle_of_not_pending (not_pending_of_status (by simp [h.1]))

/-- Whether a frame with this opcode starts a new message. -/
def starts (s : ParseState) (opcode : Fin 16) : Bool :=
  !s.parser.isContinuation && UInt8.ofNat opcode != 0

theorem starts_eq (s : ParseState) (opcode : Fin 16) :
    starts s opcode = (!s.parser.isContinuation && opcode != 0) := by
  have h : ∀ opcode : Fin 16, (UInt8.ofNat opcode != 0) = (opcode != 0) := by decide
  rw [starts, h]

/-- Parser and frame once the header has been read and, for a masked frame, its key too. -/
def afterHeader (s : ParseState) (h : Header) : ParseState :=
  { parser :=
      { status := .payload, byteNeed := h.len, isContinuation := s.parser.isContinuation,
        maskIndex := s.parser.maskIndex }
    frame :=
      { fin := h.fin
        rsv := UInt8.ofNat h.rsv
        opcode := if starts s h.opcode then UInt8.ofNat h.opcode else s.frame.opcode
        mask := h.key.isSome
        payloadLen := h.len
        maskKey := h.key.elim (if starts s h.opcode then [] else s.frame.maskKey) Subtype.val
        payload := if starts s h.opcode then [] else s.frame.payload } }

/-- A byte read outside the payload: no output, no error. -/
theorem one_of_status {s : ParseState} (hinv : ParseInv s) (hst : s.parser.status ≠ .payload)
    (b : UInt8) :
    byteMachine.one s b = ⟨(consume s b).1, [], none, 1⟩ := by
  unfold one
  simp only [byteMachine, settle_of_not_pending (not_pending_of_status hst), consume]
  cases hs : s.parser.status with
  | payload => exact absurd hs hst
  | complete => exact absurd hs hinv.notComplete
  | _ => rfl

/-- The bytes of an extended length. -/
theorem run_beBytes {s : ParseState} (hinv : ParseInv s) (hst : s.parser.status = .payloadLen)
    {k n : Nat} (hneed : s.parser.byteNeed = k) (hacc : s.frame.payloadLen = n / 256 ^ k)
    (hn : n < 2 ^ 64) :
    byteMachine.run s (beBytes k n) =
      ⟨switchToMask { parser := { s.parser with byteNeed := 0 }
                      frame := { s.frame with payloadLen := n } }, [], none, k⟩ := by
  induction k generalizing s with
  | zero => exact absurd (hinv.payloadLen hst).1 (by omega)
  | succ k ih =>
    have hpos : 1 ≤ s.parser.byteNeed := by omega
    have hdigit : pushLenByte s.frame.payloadLen (UInt8.ofNat (n / 256 ^ k)) = n / 256 ^ k := by
      have hdiv : n / 256 ^ (k + 1) = n / 256 ^ k / 256 := by
        rw [Nat.pow_succ, Nat.div_div_eq_div_mul]
      have hle : n / 256 ^ k ≤ n := Nat.div_le_self _ _
      rw [hacc, hdiv, pushLenByte_eq (by omega), UInt8.toNat_ofNat']
      omega
    have hone := one_of_status hinv (by simp [hst]) (UInt8.ofNat (n / 256 ^ k))
    have hcons : (consume s (UInt8.ofNat (n / 256 ^ k))).1 =
        onPayloadLen s (UInt8.ofNat (n / 256 ^ k)) := by
      simp [consume, hst]
    have hstep := hinv.onPayloadLen hst (UInt8.ofNat (n / 256 ^ k))
    rw [hcons] at hone
    rw [beBytes, run_cons, hone, andThen_of_none rfl]
    rw [onPayloadLen_eq hpos] at hstep ⊢
    rcases Nat.eq_zero_or_pos k with rfl | hk
    · -- the last digit: the length is complete
      rw [Nat.pow_zero, Nat.div_one] at hdigit
      simp [beBytes, hneed, takeLenByte, hdigit]
    · rw [if_neg (by omega)] at hstep ⊢
      rw [ih hstep (by simpa [takeLenByte] using hst) (by simp [takeLenByte, hneed])
        (by simpa [takeLenByte] using hdigit)]
      simp [takeLenByte, Nat.add_comm]

/-- The bytes of a masking key. -/
theorem run_key {s : ParseState} (hinv : ParseInv s) (hst : s.parser.status = .maskKey)
    {key : List UInt8} (hlen : key.length = s.parser.byteNeed) :
    byteMachine.run s key =
      ⟨{ parser := { s.parser with byteNeed := s.frame.payloadLen, status := .payload }
         frame := { s.frame with maskKey := s.frame.maskKey ++ key } }, [], none, key.length⟩ := by
  induction key generalizing s with
  | nil =>
    rw [List.length_nil] at hlen
    exact absurd (hinv.maskKey hst).1 (by omega)
  | cons b key ih =>
    have hpos : 1 ≤ s.parser.byteNeed := (hinv.maskKey hst).1
    have hone := one_of_status hinv (by simp [hst]) b
    have hcons : (consume s b).1 = onMaskKey s b := by simp [consume, hst]
    have hstep := hinv.onMaskKey hst b
    rw [List.length_cons] at hlen
    rw [hcons] at hone
    rw [run_cons, hone, andThen_of_none rfl]
    rw [onMaskKey_eq hpos] at hstep ⊢
    by_cases hkey : key = []
    · -- the last byte of the key: the payload comes next
      subst hkey
      simp [← hlen]
    · have hmore : 0 < key.length := List.length_pos_of_ne_nil hkey
      rw [if_neg (by omega)] at hstep ⊢
      rw [ih hstep (by simpa [takeKeyByte] using hst) (by simp [takeKeyByte]; omega)]
      simp [takeKeyByte, Nat.add_comm]

/-- Once the length is known: the key if there is one, then the payload. -/
theorem run_switchToMask {s : ParseState} (hidx : s.parser.maskIndex = 0)
    (key : Option MaskingKey) (hmask : s.frame.mask = key.isSome) :
    byteMachine.run (switchToMask s) (key.elim [] Subtype.val) =
      ⟨{ parser :=
          { status := .payload, byteNeed := s.frame.payloadLen,
            isContinuation := s.parser.isContinuation, maskIndex := s.parser.maskIndex }
         frame := { s.frame with maskKey := key.elim s.frame.maskKey Subtype.val } },
        [], none, (key.elim [] Subtype.val).length⟩ := by
  cases key with
  | none =>
    -- an unmasked frame has no key: what is left of the last one stays in the record
    have hmask' : s.frame.mask = false := hmask
    have hstate : switchToMask s =
        { s with parser := { s.parser with status := .payload, byteNeed := s.frame.payloadLen } } :=
      by simp [switchToMask, hmask']
    rw [hstate]
    rfl
  | some key =>
    have hmask' : s.frame.mask = true := hmask
    have hinv := ParseInv.switchToMask (s := s) hidx
    have hstate : switchToMask s =
        { parser := { s.parser with status := .maskKey, byteNeed := 4 }
          frame := { s.frame with maskKey := [] } } := by
      simp [switchToMask, hmask']
    rw [hstate] at hinv ⊢
    exact run_key hinv rfl key.2

/-- The 7-bit length and the extended one. -/
theorem run_lenFields {s : ParseState} (hinv : ParseInv s)
    (hst : s.parser.status = .payloadLenAndMask) (mask : Bool) {form : LenForm} {n : Nat}
    (h : form.Holds n) :
    byteMachine.run s (lenByte mask (form.fields n).1 :: (form.fields n).2) =
      ⟨switchToMask { s with frame := { s.frame with mask := mask, payloadLen := n } }, [], none,
        (form.fields n).2.length + 1⟩ := by
  have hone := one_of_status hinv (by simp [hst]) (lenByte mask (form.fields n).1)
  have hcons : (consume s (lenByte mask (form.fields n).1)).1 =
      onPayloadLenAndMask s (lenByte mask (form.fields n).1) := by
    simp [consume, hst]
  have hstep := hinv.onPayloadLenAndMask hst (lenByte mask (form.fields n).1)
  rw [hcons] at hone
  rw [run_cons, hone, andThen_of_none rfl]
  -- both extended forms: `k` bytes are asked for, and `n` fits into them
  have hext : ∀ k, onPayloadLenAndMask s (lenByte mask (form.fields n).1) =
        { parser := { s.parser with status := .payloadLen, byteNeed := k }
          frame := { s.frame with mask := mask, payloadLen := 0 } } → n < 256 ^ k →
      byteMachine.run (onPayloadLenAndMask s (lenByte mask (form.fields n).1)) (beBytes k n) =
        ⟨switchToMask { s with frame := { s.frame with mask := mask, payloadLen := n } }, [],
          none, k⟩ := by
    intro k hk hn
    rw [hk] at hstep ⊢
    rw [run_beBytes hstep rfl rfl (Nat.div_eq_of_lt hn).symm h.lt]
    rfl
  cases form with
  | len7 =>
    have hn : n ≤ 125 := h
    have hget := getPayloadLen_lenByte mask (n := n) (by omega)
    have hmask := getMask_lenByte mask (n := n) (by omega)
    simp [LenForm.fields, onPayloadLenAndMask, hget, hmask, hn]
  | len16 =>
    have hn : n < 2 ^ 16 := h
    have hget := getPayloadLen_lenByte mask (n := 126) (by omega)
    have hmask := getMask_lenByte mask (n := 126) (by omega)
    have hrun := hext 2 (by simp [LenForm.fields, onPayloadLenAndMask, hget, hmask]) (by omega)
    simp only [LenForm.fields] at hrun ⊢
    rw [hrun]
    simp
  | len64 =>
    have hn : n < 2 ^ 64 := h
    have hget := getPayloadLen_lenByte mask (n := 127) (by omega)
    have hmask := getMask_lenByte mask (n := 127) (by omega)
    have hrun := hext 8 (by simp [LenForm.fields, onPayloadLenAndMask, hget, hmask]) (by omega)
    simp only [LenForm.fields] at hrun ⊢
    rw [hrun]
    simp

/-- **A header is read into `afterHeader`.** -/
theorem run_encodeHeader {s : ParseState} (hs : Idle s) (h : Header) :
    byteMachine.run s (encodeHeader h) = ⟨afterHeader s h, [], none, (encodeHeader h).length⟩ := by
  obtain ⟨hst, hidx⟩ := hs
  have hinv := ParseInv.of_finAndOpcode hst hidx
  have hone := one_of_status hinv (by simp [hst]) (headByte h.fin h.rsv h.opcode)
  have hcons : (consume s (headByte h.fin h.rsv h.opcode)).1 =
      onFinAndOpcode s (headByte h.fin h.rsv h.opcode) := by
    simp [consume, hst]
  have hstep := hinv.onFinAndOpcode hst (headByte h.fin h.rsv h.opcode)
  rw [hcons] at hone
  -- the three parts in turn: first byte, length fields, key
  have hlen := run_lenFields hstep rfl h.key.isSome h.holds
  have hkey := run_switchToMask
    (s := { onFinAndOpcode s (headByte h.fin h.rsv h.opcode) with
      frame := { (onFinAndOpcode s (headByte h.fin h.rsv h.opcode)).frame with
        mask := h.key.isSome, payloadLen := h.len } }) hidx h.key rfl
  have hfinal : afterHeader s h =
      { parser :=
          { status := .payload, byteNeed := h.len,
            isContinuation := s.parser.isContinuation, maskIndex := s.parser.maskIndex }
        frame := { (onFinAndOpcode s (headByte h.fin h.rsv h.opcode)).frame with
          mask := h.key.isSome, payloadLen := h.len,
          maskKey := h.key.elim
            (onFinAndOpcode s (headByte h.fin h.rsv h.opcode)).frame.maskKey Subtype.val } } := by
    simp only [afterHeader, onFinAndOpcode, starts, getFin_headByte, getRsv_headByte,
      getOpcode_headByte]
    split <;> simp [*]
  rw [encodeHeader, run_cons, hone, andThen_of_none rfl, ← List.cons_append, run_append, hlen,
    andThen_of_none rfl, hkey, hfinal]
  simp [onFinAndOpcode]
  omega

/-! ### Reading a frame -/

/-- The frame as `m_onComplete` would see it once all of `f` has been read. -/
def completed (s : ParseState) (f : Frame) : WsFrame :=
  { (afterHeader s f.header).frame with
    payload := (afterHeader s f.header).frame.payload ++ f.payload }

/-- One whole frame, from idle to idle. -/
def frameStep (s : ParseState) (f : Frame) : ParseState × List WsFrame :=
  ({ parser := { status := .finAndOpcode, byteNeed := 0, isContinuation := !f.fin, maskIndex := 0 }
     frame := completed s f },
    if f.fin then [completed s f] else [])

theorem frameStep_idle (s : ParseState) (f : Frame) : Idle (frameStep s f).1 := ⟨rfl, rfl⟩

/-- Completing a frame whose payload is all there. -/
theorem onComplete_eq_frameStep {s t : ParseState} {f : Frame} (ht : t.frame = completed s f) :
    onComplete t = frameStep s f := by
  have hfin : (completed s f).fin = f.fin := rfl
  unfold onComplete frameStep
  rcases h : f.fin with _ | _ <;> simp [ht, hfin, h]

theorem maskFrom_unmask (key : List UInt8) (i : Nat) (bs : List UInt8) :
    maskFrom key i (maskFrom key i bs) = bs := by
  induction bs generalizing i with
  | nil => rfl
  | cons b bs ih => simp only [maskFrom, ih, UInt8.xor_assoc, UInt8.xor_self, UInt8.xor_zero]

/-- Absorbing the bytes of a masked frame unmasks them, those of an unmasked frame copies
    them. -/
theorem absorb_payload (s : ParseState) (bs : List UInt8) :
    (absorb s bs).frame.payload =
      s.frame.payload ++
        if s.frame.mask then maskFrom s.frame.maskKey s.parser.maskIndex bs else bs := by
  induction bs generalizing s with
  | nil => simp [maskFrom]
  | cons b bs ih =>
    rw [absorb_cons, ih]
    rcases hmask : s.frame.mask with _ | _ <;> simp [absorbByte, hmask, maskFrom]

/-- The payload bytes of a frame, read after its header, give back the payload. -/
theorem absorb_wirePayload {s : ParseState} (hidx : s.parser.maskIndex = 0) (f : Frame) :
    (absorb (afterHeader s f.header) f.wirePayload).frame = completed s f := by
  rw [absorb_eq, completed, absorb_payload]
  have hunmask : (if (afterHeader s f.header).frame.mask = true then
        maskFrom (afterHeader s f.header).frame.maskKey (afterHeader s f.header).parser.maskIndex
          f.wirePayload
      else f.wirePayload) = f.payload := by
    rcases hkey : f.key with _ | key
    · simp [afterHeader, Frame.header, Frame.wirePayload, hkey]
    · simp [afterHeader, Frame.header, Frame.wirePayload, hkey, hidx, maskFrom_unmask]
  rw [hunmask]

/-- The payload of a frame within the limit, read after its header. -/
theorem run_wirePayload {s : ParseState} (hs : Idle s) {f : Frame}
    (hlim : f.payload.length ≤ limitPayloadLen) (hne : f.payload ≠ []) :
    byteMachine.run (afterHeader s f.header) f.wirePayload =
      ⟨(frameStep s f).1, (frameStep s f).2, none, f.wirePayload.length⟩ := by
  have hpos : 0 < f.payload.length := List.length_pos_of_ne_nil hne
  have hwire : f.wirePayload ≠ [] :=
    List.ne_nil_of_length_pos (by rw [wirePayload_length]; exact hpos)
  have hneed : (afterHeader s f.header).parser.byteNeed = f.wirePayload.length := by
    rw [wirePayload_length]; rfl
  rw [run_absorb rfl hlim hwire (by omega), if_pos hneed,
    onComplete_eq_frameStep (absorb_wirePayload hs.2 f)]

/-- An empty frame is left pending: its completion waits for the next byte. -/
theorem settle_afterHeader {s : ParseState} {f : Frame} (hnil : f.payload = []) :
    settle (afterHeader s f.header) = frameStep s f := by
  have hlen : f.header.len = 0 := by simp [Frame.header, hnil]
  have hp : Pending (afterHeader s f.header) := by
    refine ⟨rfl, hlen, ?_⟩
    show f.header.len ≤ limitPayloadLen
    omega
  rw [settle_of_pending hp]
  apply onComplete_eq_frameStep
  simp [completed, hnil]

theorem run_encodeFrame_of_nil {s : ParseState} (hs : Idle s) {f : Frame}
    (hnil : f.payload = []) :
    byteMachine.run s (encodeFrame f) =
      ⟨afterHeader s f.header, [], none, (encodeFrame f).length⟩ := by
  have hwire : f.wirePayload = [] := by
    apply List.eq_nil_of_length_eq_zero
    rw [wirePayload_length, hnil]
    rfl
  rw [encodeFrame, hwire, List.append_nil]
  exact run_encodeHeader hs f.header

theorem run_encodeFrame_of_ne_nil {s : ParseState} (hs : Idle s) {f : Frame}
    (hlim : f.payload.length ≤ limitPayloadLen) (hne : f.payload ≠ []) :
    byteMachine.run s (encodeFrame f) =
      ⟨(frameStep s f).1, (frameStep s f).2, none, (encodeFrame f).length⟩ := by
  rw [encodeFrame, run_append, run_encodeHeader hs, andThen_of_none rfl,
    run_wirePayload hs hlim hne]
  simp

/-- **A frame within the limit is one `frameStep`**, the completion of an empty frame being
    paid at the end. -/
theorem drain_encodeFrame {s : ParseState} (hs : Idle s) {f : Frame}
    (hlim : f.payload.length ≤ limitPayloadLen) :
    byteSettling.drain s (encodeFrame f) =
      ⟨(frameStep s f).1, (frameStep s f).2, none, (encodeFrame f).length⟩ := by
  by_cases hnil : f.payload = []
  · rw [Settling.drain, run_encodeFrame_of_nil hs hnil, andThen_of_none rfl]
    simp [Settling.paid, byteSettling, settle_afterHeader hnil]
  · have hrun := run_encodeFrame_of_ne_nil hs hlim hnil
    rw [byteSettling.drain_eq_run (by rw [hrun]; exact (frameStep_idle s f).settle), hrun]

/-! ### Reading several frames -/

/-- The frames of a list, one after another: the state they leave and the firings. -/
abbrev frameSteps (s : ParseState) (fs : List Frame) : ParseState × List WsFrame :=
  steps frameStep s fs

theorem frameSteps_idle {s : ParseState} (hs : Idle s) (fs : List Frame) :
    Idle (frameSteps s fs).1 :=
  steps_invariant (P := fun _ => True) (fun s f _ _ => frameStep_idle s f) hs fun _ _ => trivial

/-- **Frames within the limit, drained.** -/
theorem drain_encodeFrames {s : ParseState} (hs : Idle s) {fs : List Frame}
    (hlim : ∀ f ∈ fs, f.payload.length ≤ limitPayloadLen) :
    byteSettling.drain s (encodeFrames fs) =
      ⟨(frameSteps s fs).1, (frameSteps s fs).2, none, (encodeFrames fs).length⟩ :=
  byteSettling.drain_flatMap (fun _ _ hs hlim => drain_encodeFrame hs hlim)
    (fun s f _ _ => frameStep_idle s f) (fun _ hs => hs.settle) hs hlim

theorem frameSteps_concat (s : ParseState) (fs : List Frame) (f : Frame) :
    frameSteps s (fs ++ [f]) =
      ((frameStep (frameSteps s fs).1 f).1,
        (frameSteps s fs).2 ++ (frameStep (frameSteps s fs).1 f).2) := by
  rw [frameSteps, steps_append]
  simp [steps]

theorem encodeFrame_ne_nil (f : Frame) : encodeFrame f ≠ [] := by
  simp [encodeFrame, encodeHeader]

/-- **Frames within the limit of which the last is not empty**: nothing stays pending. -/
theorem run_encodeFrames {s : ParseState} (hs : Idle s) {fs : List Frame}
    (hlim : ∀ f ∈ fs, f.payload.length ≤ limitPayloadLen)
    (hlast : ∀ f, fs.getLast? = some f → f.payload ≠ []) :
    byteMachine.run s (encodeFrames fs) =
      ⟨(frameSteps s fs).1, (frameSteps s fs).2, none, (encodeFrames fs).length⟩ := by
  rcases List.eq_nil_or_concat fs with rfl | ⟨init, f, rfl⟩
  · rfl
  · have hf : f.payload ≠ [] := hlast f (by simp)
    have hinit : byteSettling.drain s (encodeFrames init) = _ :=
      drain_encodeFrames hs fun g hg => hlim g (by simp [hg])
    have hstep := run_encodeFrame_of_ne_nil (frameSteps_idle hs init) (hlim f (by simp)) hf
    have henc : encodeFrames (init.concat f) = encodeFrames init ++ encodeFrame f := by
      simp [encodeFrames]
    rw [henc, byteSettling.run_append_of_ne_nil s _ (encodeFrame_ne_nil f), hinit,
      andThen_of_none rfl, hstep, List.concat_eq_append, frameSteps_concat]
    simp

/-- The first of several frames, when others follow. -/
theorem run_encodeFrames_cons {s : ParseState} (hs : Idle s) {f : Frame}
    (hlim : f.payload.length ≤ limitPayloadLen) {fs : List Frame} (hne : fs ≠ []) :
    byteMachine.run s (encodeFrames (f :: fs)) =
      (⟨(frameStep s f).1, (frameStep s f).2, none, (encodeFrame f).length⟩ :
        Outcome _ _ _).andThen (byteMachine.run · (encodeFrames fs)) := by
  have hbytes : encodeFrames fs ≠ [] := by
    obtain ⟨g, gs, rfl⟩ := List.exists_cons_of_ne_nil hne
    simp [encodeFrames, encodeFrame_ne_nil]
  have henc : encodeFrames (f :: fs) = encodeFrame f ++ encodeFrames fs := rfl
  rw [henc, byteSettling.run_append_of_ne_nil s _ hbytes, drain_encodeFrame hs hlim]

/-- **A header that declares too much** is refused at the first byte after it, before any byte
    of the payload is taken. -/
theorem run_encodeHeader_of_limit {s : ParseState} (hs : Idle s) {h : Header}
    (hlim : limitPayloadLen < h.len) (b : UInt8) (rest : List UInt8) :
    byteMachine.run s (encodeHeader h ++ b :: rest) =
      ⟨onLimit (afterHeader s h), [], some .invalidPayloadLen, (encodeHeader h).length⟩ := by
  have hnp : ¬ Pending (afterHeader s h) := by
    intro hp
    have hle : h.len ≤ limitPayloadLen := hp.2.2
    omega
  have hlim' : limitPayloadLen < (afterHeader s h).frame.payloadLen := hlim
  have hone : byteMachine.one (afterHeader s h) b =
      ⟨onLimit (afterHeader s h), [], some .invalidPayloadLen, 0⟩ := by
    have hst : (afterHeader s h).parser.status = .payload := rfl
    simp [one, byteMachine, settle_of_not_pending hnp, consume, hst, hlim']
  rw [run_append, run_encodeHeader hs, andThen_of_none rfl, run_cons, hone, andThen_of_stop rfl]
  simp

end MyWebSocket
