import MyWebSocket.Parser.Wire

namespace MyWebSocket

/-!
# Frames can be read back

No frame's bytes are the beginning of another frame's: a byte string is a sequence of frames in
one way at most (`encodeFrames_inj`).

The fields come one after another, and each says how long the next one is; so two frames that
begin the same bytes agree field by field.
-/

/-- The first byte gives its fields back. -/
theorem headByte_inj {fin fin' : Bool} {rsv rsv' : Fin 8} {opcode opcode' : Fin 16}
    (h : headByte fin rsv opcode = headByte fin' rsv' opcode') :
    fin = fin' ∧ rsv = rsv' ∧ opcode = opcode' := by
  have hrsvs : ∀ a b : Fin 8, UInt8.ofNat a = UInt8.ofNat b → a = b := by decide
  have hopcodes : ∀ a b : Fin 16, UInt8.ofNat a = UInt8.ofNat b → a = b := by decide
  have hfin := congrArg getFin h
  have hrsv := congrArg getRsv h
  have hop := congrArg getOpcode h
  rw [getFin_headByte, getFin_headByte] at hfin
  rw [getRsv_headByte, getRsv_headByte] at hrsv
  rw [getOpcode_headByte, getOpcode_headByte] at hop
  exact ⟨hfin, hrsvs rsv rsv' hrsv, hopcodes opcode opcode' hop⟩

theorem lenByte_inj {mask mask' : Bool} {n n' : Nat} (hn : n < 128) (hn' : n' < 128)
    (h : lenByte mask n = lenByte mask' n') : mask = mask' ∧ n = n' := by
  have hmask := congrArg getMask h
  have hlen := congrArg getPayloadLen h
  rw [getMask_lenByte mask hn, getMask_lenByte mask' hn'] at hmask
  rw [getPayloadLen_lenByte mask hn, getPayloadLen_lenByte mask' hn'] at hlen
  exact ⟨hmask, hlen⟩

/-- `k` digits give a number back up to multiples of `256 ^ k`. -/
theorem beBytes_inj {k n n' : Nat} (h : beBytes k n = beBytes k n') :
    n % 256 ^ k = n' % 256 ^ k := by
  induction k with
  | zero => rw [Nat.pow_zero, Nat.mod_one, Nat.mod_one]
  | succ k ih =>
    obtain ⟨hdigit, hrest⟩ := List.cons_eq_cons.mp h
    have hmod : n / 256 ^ k % 256 = n' / 256 ^ k % 256 := by
      have := congrArg UInt8.toNat hdigit
      rwa [UInt8.toNat_ofNat', UInt8.toNat_ofNat'] at this
    rw [Nat.pow_succ, Nat.mod_mul, Nat.mod_mul, ih hrest, hmod]

theorem LenForm.Holds.fields_lt {form : LenForm} {n : Nat} (h : form.Holds n) :
    (form.fields n).1 < 128 := by
  cases form with
  | len7 => exact Nat.lt_of_le_of_lt h (by omega)
  | len16 => exact (by omega : 126 < 128)
  | len64 => exact (by omega : 127 < 128)

/-- The 7-bit field says how long the extended length is, and both give the length back. -/
theorem LenForm.fields_inj {form form' : LenForm} {n n' : Nat} (h : form.Holds n)
    (h' : form'.Holds n') (hfst : (form.fields n).1 = (form'.fields n').1) {xs ys : List UInt8}
    (hsnd : (form.fields n).2 ++ xs = (form'.fields n').2 ++ ys) :
    form = form' ∧ n = n' ∧ xs = ys := by
  have hdigits : ∀ k, beBytes k n ++ xs = beBytes k n' ++ ys → n < 256 ^ k → n' < 256 ^ k →
      n = n' ∧ xs = ys := by
    intro k heq hn hn'
    obtain ⟨hbytes, hrest⟩ := List.append_inj heq (by simp)
    have hmod := beBytes_inj hbytes
    rw [Nat.mod_eq_of_lt hn, Nat.mod_eq_of_lt hn'] at hmod
    exact ⟨hmod, hrest⟩
  -- different forms have different 7-bit fields
  cases form <;> cases form' <;> simp only [LenForm.fields, LenForm.Holds] at h h' hfst hsnd
  case len7.len7 => exact ⟨rfl, hfst, hsnd⟩
  case len16.len16 => exact ⟨rfl, hdigits 2 hsnd (by omega) (by omega)⟩
  case len64.len64 => exact ⟨rfl, hdigits 8 hsnd (by omega) (by omega)⟩
  all_goals omega

/-- The MASK bit says whether a key follows. -/
theorem key_inj {key key' : Option MaskingKey} (hsome : key.isSome = key'.isSome)
    {xs ys : List UInt8}
    (h : key.elim [] Subtype.val ++ xs = key'.elim [] Subtype.val ++ ys) : key = key' ∧ xs = ys := by
  cases key with
  | none =>
    cases key' with
    | none => exact ⟨rfl, h⟩
    | some k' => cases hsome
  | some k =>
    cases key' with
    | none => cases hsome
    | some k' =>
      obtain ⟨hkey, hrest⟩ := List.append_inj h (k.2.trans k'.2.symm)
      exact ⟨congrArg some (Subtype.ext hkey), hrest⟩

/-- **No header is the beginning of another one.** -/
theorem encodeHeader_append_inj {h h' : Header} {xs ys : List UInt8}
    (heq : encodeHeader h ++ xs = encodeHeader h' ++ ys) : h = h' ∧ xs = ys := by
  obtain ⟨fin, rsv, opcode, key, form, len, holds⟩ := h
  obtain ⟨fin', rsv', opcode', key', form', len', holds'⟩ := h'
  simp only [encodeHeader, List.cons_append, List.append_assoc, List.cons.injEq] at heq
  obtain ⟨hhead, hlen, htail⟩ := heq
  obtain ⟨rfl, rfl, rfl⟩ := headByte_inj hhead
  obtain ⟨hmask, hfield⟩ := lenByte_inj holds.fields_lt holds'.fields_lt hlen
  obtain ⟨rfl, rfl, hkey⟩ := LenForm.fields_inj holds holds' hfield htail
  obtain ⟨rfl, hrest⟩ := key_inj hmask hkey
  exact ⟨rfl, hrest⟩

/-- **No frame is the beginning of another one.** -/
theorem encodeFrame_append_inj {f g : Frame} {xs ys : List UInt8}
    (h : encodeFrame f ++ xs = encodeFrame g ++ ys) : f = g ∧ xs = ys := by
  rw [encodeFrame, encodeFrame, List.append_assoc, List.append_assoc] at h
  obtain ⟨hheader, htail⟩ := encodeHeader_append_inj h
  have hlen : f.payload.length = g.payload.length := congrArg Header.len hheader
  have hkey : f.key = g.key := congrArg Header.key hheader
  obtain ⟨hwire, hrest⟩ := List.append_inj htail (by simpa using hlen)
  -- the same key unmasks both payloads
  have hpayload : f.payload = g.payload := by
    unfold Frame.wirePayload at hwire
    rw [hkey] at hwire
    cases hg : g.key with
    | none => rwa [hg] at hwire
    | some key =>
      rw [hg] at hwire
      have := congrArg (maskFrom key.val 0) hwire
      rwa [maskFrom_unmask, maskFrom_unmask] at this
  refine ⟨?_, hrest⟩
  obtain ⟨fin, rsv, opcode, key, form, payload, holds⟩ := f
  obtain ⟨fin', rsv', opcode', key', form', payload', holds'⟩ := g
  obtain rfl : payload = payload' := hpayload
  cases hheader
  rfl

/-- **A byte string is a sequence of frames in one way at most.** -/
theorem encodeFrames_inj {fs gs : List Frame} (h : encodeFrames fs = encodeFrames gs) :
    fs = gs := by
  induction fs generalizing gs with
  | nil =>
    cases gs with
    | nil => rfl
    | cons g gs =>
      have hnil : encodeFrame g = [] := (List.append_eq_nil_iff.mp h.symm).1
      exact absurd hnil (encodeFrame_ne_nil g)
  | cons f fs ih =>
    cases gs with
    | nil =>
      have hnil : encodeFrame f = [] := (List.append_eq_nil_iff.mp h).1
      exact absurd hnil (encodeFrame_ne_nil f)
    | cons g gs =>
      obtain ⟨rfl, hrest⟩ := encodeFrame_append_inj (h : encodeFrame f ++ encodeFrames fs =
        encodeFrame g ++ encodeFrames gs)
      rw [ih hrest]

end MyWebSocket
