import MyWebSocket.Library.JsonText

/-!
# The grammar of RFC 8259

Which byte sequences the grammar of JSON takes, whatever they stand for.

* `Number`, `Chars` — a number, and what may stand between quotation marks;
* `IntegerText`, `RealText` — the two kinds of numbers;
* `Gram` — a value, the elements of an array and the members of an object, without white space
  around them;
* `Document` — a JSON text.

A byte from 0x80 on is part of a character; that these bytes are UTF-8 is a condition of its own
(`Utf8`).
-/

namespace JsonGrammar

open JsonText (Hex4 Space StringText quoted)

/-! ### Numbers -/

/-- One digit or more. -/
def Digits (t : List UInt8) : Prop := t ≠ [] ∧ ∀ b ∈ t, Http11.isDigit b = true

/-- An integer part: no digit follows a leading zero. -/
inductive IntPart : List UInt8 → Prop
  | zero : IntPart [0x30]
  | digits {d : UInt8} {ds : List UInt8} (hd : Http11.isDigit d = true) (hzero : d ≠ 0x30)
      (hds : ∀ b ∈ ds, Http11.isDigit b = true) : IntPart (d :: ds)

/-- A fraction, or nothing. -/
inductive Frac : List UInt8 → Prop
  | none : Frac []
  | some {ds : List UInt8} (hds : Digits ds) : Frac (0x2E :: ds)

/-- An exponent, or nothing. -/
inductive Exp : List UInt8 → Prop
  | none : Exp []
  | some {e : UInt8} {sign ds : List UInt8} (he : e = 0x65 ∨ e = 0x45)
      (hsign : sign = [] ∨ sign = [0x2B] ∨ sign = [0x2D]) (hds : Digits ds) :
      Exp (e :: (sign ++ ds))

inductive Number : List UInt8 → Prop
  | parts {minus int frac exp : List UInt8} (hminus : minus = [] ∨ minus = [0x2D])
      (hint : IntPart int) (hfrac : Frac frac) (hexp : Exp exp) :
      Number (minus ++ (int ++ (frac ++ exp)))

/-- A number without a fraction or an exponent, and the integer it stands for. -/
inductive IntegerText : List UInt8 → Int → Prop
  | nonneg {ds : List UInt8} (h : IntPart ds) : IntegerText ds (Http11.number ds)
  | neg {ds : List UInt8} (h : IntPart ds) : IntegerText (0x2D :: ds) (-(Http11.number ds : Int))

/-- A number with a fraction or an exponent. -/
inductive RealText : List UInt8 → Prop
  | parts {minus int frac exp : List UInt8} (hminus : minus = [] ∨ minus = [0x2D])
      (hint : IntPart int) (hfrac : Frac frac) (hexp : Exp exp)
      (hreal : (frac.isEmpty && exp.isEmpty) = Bool.false) :
      RealText (minus ++ (int ++ (frac ++ exp)))

theorem integerText_of_parts {minus int : List UInt8} (hminus : minus = [] ∨ minus = [0x2D])
    (hint : IntPart int) : ∃ n, IntegerText (minus ++ int) n := by
  rcases hminus with rfl | rfl
  · exact ⟨_, .nonneg hint⟩
  · exact ⟨_, .neg hint⟩

/-! ### Strings -/

def IsHexDigit (b : UInt8) : Prop := (JsonText.hexValue b).isSome = true

instance (b : UInt8) : Decidable (IsHexDigit b) := inferInstanceAs (Decidable (_ = _))

/-- What may stand between quotation marks. -/
inductive Chars : List UInt8 → Prop
  | nil : Chars []
  | unescaped {b : UInt8} {t : List UInt8} (hquote : b ≠ 0x22) (hslash : b ≠ 0x5C)
      (hcontrol : ¬ b < 0x20) (h : Chars t) : Chars (b :: t)
  | short {e b : UInt8} {t : List UInt8} (he : (e, b) ∈ JsonText.shortEscapes) (h : Chars t) :
      Chars (0x5C :: e :: t)
  | unit {ds t : List UInt8} (hlength : ds.length = 4) (hds : ∀ b ∈ ds, IsHexDigit b)
      (h : Chars t) : Chars (0x5C :: 0x75 :: (ds ++ t))

theorem hex4_of_digits {ds : List UInt8} (hlength : ds.length = 4) (hds : ∀ b ∈ ds, IsHexDigit b) :
    ∃ n, Hex4 ds n := by
  obtain ⟨a, b, c, d, rfl⟩ := List.length_eq_four.mp hlength
  simp only [List.forall_mem_cons] at hds
  obtain ⟨ha, hb, hc, hd, -⟩ := hds
  obtain ⟨i, hi⟩ := Option.isSome_iff_exists.mp ha
  obtain ⟨j, hj⟩ := Option.isSome_iff_exists.mp hb
  obtain ⟨k, hk⟩ := Option.isSome_iff_exists.mp hc
  obtain ⟨l, hl⟩ := Option.isSome_iff_exists.mp hd
  exact ⟨_, .digits hi hj hk hl⟩

theorem digits_of_hex4 {ds : List UInt8} {n : Nat} (h : Hex4 ds n) :
    ds.length = 4 ∧ ∀ b ∈ ds, IsHexDigit b := by
  obtain ⟨ha, hb, hc, hd⟩ := h
  refine ⟨rfl, ?_⟩
  simp only [List.forall_mem_cons, IsHexDigit, ha, hb, hc, hd, Option.isSome_some, true_and]
  exact fun _ h => absurd h List.not_mem_nil

/-- **The text of a string is in the grammar.** -/
theorem chars_of_stringText {s t : List UInt8} (h : StringText s t) : Chars t := by
  induction h with
  | nil => exact .nil
  | raw hquote hslash hcontrol _ ih => exact .unescaped hquote hslash (UInt8.not_lt.mpr hcontrol) ih
  | short he _ ih => exact .short he ih
  | unit hds _ ih =>
    obtain ⟨hlength, hdigits⟩ := digits_of_hex4 hds
    exact .unit hlength hdigits ih
  | pair hds hes _ _ _ _ ih =>
    obtain ⟨hlength, hdigits⟩ := digits_of_hex4 hds
    obtain ⟨hlength', hdigits'⟩ := digits_of_hex4 hes
    exact .unit hlength hdigits (.unit hlength' hdigits' ih)

/-! ### Values -/

/-- The kinds of phrases. -/
inductive Phrase
  | value
  | elements
  | members

/-- The phrases of the grammar. -/
inductive Gram : Phrase → List UInt8 → Prop
  | true : Gram .value (Http11.ascii "true")
  | false : Gram .value (Http11.ascii "false")
  | null : Gram .value (Http11.ascii "null")
  | number {t : List UInt8} (h : Number t) : Gram .value t
  | string {t : List UInt8} (h : Chars t) : Gram .value (quoted t)
  | emptyArray {w : List UInt8} (hw : Space w) : Gram .value (0x5B :: (w ++ [0x5D]))
  | array {w t w' : List UInt8} (hw : Space w) (h : Gram .elements t) (hw' : Space w') :
      Gram .value (0x5B :: (w ++ (t ++ (w' ++ [0x5D]))))
  | emptyObject {w : List UInt8} (hw : Space w) : Gram .value (0x7B :: (w ++ [0x7D]))
  | object {w t w' : List UInt8} (hw : Space w) (h : Gram .members t) (hw' : Space w') :
      Gram .value (0x7B :: (w ++ (t ++ (w' ++ [0x7D]))))
  | lastElement {t : List UInt8} (h : Gram .value t) : Gram .elements t
  | element {t w w' ts : List UInt8} (h : Gram .value t) (hw : Space w) (hw' : Space w')
      (hrest : Gram .elements ts) : Gram .elements (t ++ (w ++ 0x2C :: (w' ++ ts)))
  | lastMember {k w w' t : List UInt8} (hk : Chars k) (hw : Space w) (hw' : Space w')
      (h : Gram .value t) : Gram .members (quoted k ++ (w ++ 0x3A :: (w' ++ t)))
  | member {k w w' t w₁ w₂ ts : List UInt8} (hk : Chars k) (hw : Space w) (hw' : Space w')
      (h : Gram .value t) (hw₁ : Space w₁) (hw₂ : Space w₂) (hrest : Gram .members ts) :
      Gram .members (quoted k ++ (w ++ 0x3A :: (w' ++ (t ++ (w₁ ++ 0x2C :: (w₂ ++ ts))))))

/-- A JSON text: a value with white space around it. -/
def Document (text : List UInt8) : Prop :=
  ∃ w t w', Space w ∧ Gram .value t ∧ Space w' ∧ text = w ++ (t ++ w')

/-- The encoding of a sequence of characters. -/
def Utf8 (text : List UInt8) : Prop := ∃ cs : List Char, text = cs.flatMap String.utf8EncodeChar

end JsonGrammar
