import Mathlib.Data.List.Basic

/-!
# Percent-encoding

A byte stands for itself, or is written as `%` and two hexadecimal digits.  Which bytes stand for
themselves is up to the encoder, as long as `%` is none of them, and neither are `&` and `=`,
which separate the pairs of a query string.

* `decode_encode` — what has been encoded can be read back;
* `encode_eq_self_iff` — a text stands for itself if and only if none of its bytes is escaped;
* `Encoder.queryString` — pairs as a query string.
-/

namespace Percent

/-- Which bytes an encoder leaves as they are. -/
structure Encoder where
  safe : UInt8 → Bool
  percent : safe 0x25 = false
  ampersand : safe 0x26 = false
  equals : safe 0x3D = false

/-- Letters, digits and `-._~`. -/
def isUnreserved (b : UInt8) : Bool :=
  (0x41 ≤ b && b ≤ 0x5A) || (0x61 ≤ b && b ≤ 0x7A) || (0x30 ≤ b && b ≤ 0x39) ||
    b == 0x2D || b == 0x2E || b == 0x5F || b == 0x7E

/-- The encoder that escapes every byte that is not unreserved. -/
def standard : Encoder := ⟨isUnreserved, by decide, by decide, by decide⟩

/-- A hexadecimal digit. -/
def hexDigit (n : Nat) : UInt8 := UInt8.ofNat (if n < 10 then 0x30 + n else 0x37 + n)

/-- The value of a hexadecimal digit. -/
def hexValue (b : UInt8) : Nat := if b ≤ 0x39 then b.toNat - 0x30 else b.toNat - 0x37

theorem hexValue_hexDigit {n : Nat} (h : n < 16) : hexValue (hexDigit n) = n := by
  have hall : ∀ n < 16, hexValue (hexDigit n) = n := by decide
  exact hall n h

/-- A digit is neither `&` nor `=`. -/
theorem hexDigit_ne {n : Nat} (h : n < 16) : hexDigit n ≠ 0x26 ∧ hexDigit n ≠ 0x3D := by
  have hall : ∀ n < 16, hexDigit n ≠ 0x26 ∧ hexDigit n ≠ 0x3D := by decide
  exact hall n h

namespace Encoder

variable (E : Encoder)

def encodeByte (b : UInt8) : List UInt8 :=
  if E.safe b then [b] else [0x25, hexDigit (b.toNat / 16), hexDigit (b.toNat % 16)]

def encode (s : List UInt8) : List UInt8 := s.flatMap E.encodeByte

end Encoder

/-- What an encoded text stands for. -/
def decode : List UInt8 → List UInt8
  | [] => []
  | [b] => [b]
  | [b, c] => [b, c]
  | b :: c :: d :: s =>
    if b = 0x25 then UInt8.ofNat (hexValue c * 16 + hexValue d) :: decode s
    else b :: decode (c :: d :: s)

namespace Encoder

variable (E : Encoder)

theorem decode_cons {b : UInt8} (hb : b ≠ 0x25) (s : List UInt8) :
    decode (b :: s) = b :: decode s := by
  rcases s with _ | ⟨c, _ | ⟨d, s⟩⟩
  · rfl
  · rfl
  · rw [decode, if_neg hb]

theorem decode_encodeByte (b : UInt8) (s : List UInt8) :
    decode (E.encodeByte b ++ s) = b :: decode s := by
  unfold encodeByte
  by_cases hsafe : E.safe b = true
  · have hb : b ≠ 0x25 := by
      rintro rfl
      rw [E.percent] at hsafe
      cases hsafe
    rw [if_pos hsafe]
    exact decode_cons hb s
  · have hlt := b.toNat_lt
    rw [if_neg hsafe]
    show decode (0x25 :: hexDigit (b.toNat / 16) :: hexDigit (b.toNat % 16) :: s) = _
    rw [decode, if_pos rfl, hexValue_hexDigit (by omega), hexValue_hexDigit (by omega),
      Nat.div_add_mod', UInt8.ofNat_toNat]

/-- **What has been encoded can be read back.** -/
theorem decode_encode (s : List UInt8) : decode (E.encode s) = s := by
  induction s with
  | nil => rfl
  | cons b s ih =>
    show decode (E.encodeByte b ++ E.encode s) = _
    rw [decode_encodeByte, ih]

theorem encode_injective {s t : List UInt8} (h : E.encode s = E.encode t) : s = t := by
  rw [← E.decode_encode s, h, E.decode_encode]

theorem encode_eq_nil {s : List UInt8} : E.encode s = [] ↔ s = [] :=
  ⟨fun h => E.encode_injective h, fun h => by rw [h]; rfl⟩

/-- An encoded text contains neither `&` nor `=`. -/
theorem not_mem_encode (s : List UInt8) : 0x26 ∉ E.encode s ∧ 0x3D ∉ E.encode s := by
  have hbyte : ∀ b, 0x26 ∉ E.encodeByte b ∧ 0x3D ∉ E.encodeByte b := by
    intro b
    unfold encodeByte
    by_cases hsafe : E.safe b = true
    · rw [if_pos hsafe, List.mem_singleton, List.mem_singleton]
      constructor
      · rintro rfl
        rw [E.ampersand] at hsafe
        cases hsafe
      · rintro rfl
        rw [E.equals] at hsafe
        cases hsafe
    · have hlt := b.toNat_lt
      have hhigh := hexDigit_ne (n := b.toNat / 16) (by omega)
      have hlow := hexDigit_ne (n := b.toNat % 16) (by omega)
      rw [if_neg hsafe]
      simp [hhigh.1.symm, hhigh.2.symm, hlow.1.symm, hlow.2.symm]
  constructor
  · intro hmem
    obtain ⟨b, -, hb⟩ := List.mem_flatMap.mp hmem
    exact (hbyte b).1 hb
  · intro hmem
    obtain ⟨b, -, hb⟩ := List.mem_flatMap.mp hmem
    exact (hbyte b).2 hb

theorem length_le_encode (s : List UInt8) : s.length ≤ (E.encode s).length := by
  induction s with
  | nil => exact Nat.zero_le _
  | cons b s ih =>
    have hpos : 0 < (E.encodeByte b).length := by
      unfold encodeByte
      split <;> simp
    show s.length + 1 ≤ (E.encodeByte b ++ E.encode s).length
    rw [List.length_append]
    omega

/-- **A text stands for itself** if and only if none of its bytes is escaped; otherwise its
    encoding is longer. -/
theorem length_encode_eq_iff (s : List UInt8) :
    (E.encode s).length = s.length ↔ ∀ b ∈ s, E.safe b = true := by
  induction s with
  | nil => simp [encode]
  | cons b s ih =>
    have hle := E.length_le_encode s
    have hlen : (E.encode (b :: s)).length = (E.encodeByte b).length + (E.encode s).length :=
      List.length_append
    rw [hlen, List.length_cons, List.forall_mem_cons, ← ih, encodeByte]
    by_cases hsafe : E.safe b = true
    · rw [if_pos hsafe]
      simp only [List.length_cons, List.length_nil, hsafe, true_and]
      omega
    · rw [if_neg hsafe]
      simp only [List.length_cons, List.length_nil, hsafe, Bool.false_eq_true, false_and, iff_false]
      omega

theorem encode_of_safe {s : List UInt8} (h : ∀ b ∈ s, E.safe b = true) : E.encode s = s := by
  induction s with
  | nil => rfl
  | cons b s ih =>
    obtain ⟨hb, hs⟩ := List.forall_mem_cons.mp h
    show E.encodeByte b ++ E.encode s = _
    rw [ih hs, encodeByte, if_pos hb]
    rfl

theorem encode_eq_self_iff (s : List UInt8) :
    E.encode s = s ↔ ∀ b ∈ s, E.safe b = true :=
  ⟨fun h => (E.length_encode_eq_iff s).mp (congrArg List.length h), E.encode_of_safe⟩

/-- A pair in a query string. -/
def pairText (e : List UInt8 × List UInt8) : List UInt8 :=
  E.encode e.1 ++ 0x3D :: E.encode e.2

/-- Pairs as a query string. -/
def queryString (es : List (List UInt8 × List UInt8)) : List UInt8 :=
  List.intercalate [0x26] (es.map E.pairText)

theorem not_mem_pairText (e : List UInt8 × List UInt8) : 0x26 ∉ E.pairText e := by
  simp [pairText, (E.not_mem_encode e.1).1, (E.not_mem_encode e.2).1]

end Encoder

end Percent
