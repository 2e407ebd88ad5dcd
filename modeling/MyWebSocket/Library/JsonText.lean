import MyWebSocket.Library.Http11

/-!
# Texts of JSON values

Which byte sequences are JSON texts of a value: between the tokens there may be white space, a
character of a string may be escaped in every way the format has, and the members of an object
may stand in any order.

* `StringText s t` — `t` stands for the bytes `s` between quotation marks;
* `Text val real v t` — `t` is a text of `v`, with integers in decimal; `val` is the number an
  integer stands for, and `real` says how the other numbers are written;
* `write` — one such text for every value (`text_write`).
-/

namespace JsonText

/-- A JSON value whose integers are of type `ι` and whose other numbers of type `δ`.  Strings are
    byte sequences. -/
inductive Value (ι δ : Type)
  | null
  | boolean (b : Bool)
  | integer (i : ι)
  | number (x : δ)
  | string (s : List UInt8)
  | array (vs : List (Value ι δ))
  | object (ms : List (List UInt8 × Value ι δ))

/-! ### White space and integers -/

def isSpace (b : UInt8) : Bool := b == 0x20 || b == 0x09 || b == 0x0A || b == 0x0D

/-- White space, or nothing. -/
def Space (w : List UInt8) : Prop := ∀ b ∈ w, isSpace b = true

theorem space_nil : Space [] := fun _ h => absurd h List.not_mem_nil

/-- An integer in decimal. -/
def integerText (n : Int) : List UInt8 :=
  if n < 0 then 0x2D :: Http11.decimal n.natAbs else Http11.decimal n.natAbs

/-! ### Strings -/

/-- The value of a hexadecimal digit. -/
def hexValue (b : UInt8) : Option Nat :=
  if 0x30 ≤ b ∧ b ≤ 0x39 then some (b.toNat - 0x30)
  else if 0x41 ≤ b ∧ b ≤ 0x46 then some (b.toNat - 0x41 + 10)
  else if 0x61 ≤ b ∧ b ≤ 0x66 then some (b.toNat - 0x61 + 10)
  else none

/-- Four hexadecimal digits and the number they stand for. -/
inductive Hex4 : List UInt8 → Nat → Prop
  | digits {a b c d : UInt8} {i j k l : Nat} (ha : hexValue a = some i) (hb : hexValue b = some j)
      (hc : hexValue c = some k) (hd : hexValue d = some l) :
      Hex4 [a, b, c, d] (((i * 16 + j) * 16 + k) * 16 + l)

/-- The escapes of one character, with what they stand for. -/
def shortEscapes : List (UInt8 × UInt8) :=
  [(0x22, 0x22), (0x5C, 0x5C), (0x2F, 0x2F), (0x62, 0x08), (0x66, 0x0C), (0x6E, 0x0A),
    (0x72, 0x0D), (0x74, 0x09)]

/-- `t` stands for `s` between quotation marks: a byte stands for itself or is escaped, and so may
    be a whole character, which then stands for the bytes of its encoding in UTF-8. -/
inductive StringText : List UInt8 → List UInt8 → Prop
  | nil : StringText [] []
  | raw {b : UInt8} {s t : List UInt8} (hquote : b ≠ 0x22) (hslash : b ≠ 0x5C)
      (hcontrol : 0x20 ≤ b) (h : StringText s t) : StringText (b :: s) (b :: t)
  | short {e b : UInt8} {s t : List UInt8} (he : (e, b) ∈ shortEscapes) (h : StringText s t) :
      StringText (b :: s) (0x5C :: e :: t)
  | unit {ds s t : List UInt8} {c : Char} (hds : Hex4 ds c.toNat) (h : StringText s t) :
      StringText (String.utf8EncodeChar c ++ s) (0x5C :: 0x75 :: (ds ++ t))
  | pair {ds es s t : List UInt8} {c : Char} {high low : Nat} (hds : Hex4 ds (0xD800 + high))
      (hes : Hex4 es (0xDC00 + low)) (hhigh : high < 0x400) (hlow : low < 0x400)
      (hc : c.toNat = 0x10000 + high * 0x400 + low) (h : StringText s t) :
      StringText (String.utf8EncodeChar c ++ s)
        (0x5C :: 0x75 :: (ds ++ 0x5C :: 0x75 :: (es ++ t)))

/-- A string in quotation marks. -/
def quoted (t : List UInt8) : List UInt8 := 0x22 :: (t ++ [0x22])

/-! ### Values -/

/-- An element of an array with its text and the white space around it. -/
structure Element (ν : Type) where
  before : List UInt8
  value : ν
  text : List UInt8
  after : List UInt8

def Element.render {ν : Type} (x : Element ν) : List UInt8 := x.before ++ x.text ++ x.after

/-- A member of an object with the text of its key and the white space around its tokens. -/
structure Member (ν : Type) where
  before : List UInt8
  key : List UInt8
  keyText : List UInt8
  behindKey : List UInt8
  element : Element ν

def Member.entry {ν : Type} (m : Member ν) : List UInt8 × ν := (m.key, m.element.value)

def Member.render {ν : Type} (m : Member ν) : List UInt8 :=
  m.before ++ quoted m.keyText ++ m.behindKey ++ 0x3A :: m.element.render

/-- White space stands where it may. -/
def Element.Spaced {ν : Type} (x : Element ν) : Prop := Space x.before ∧ Space x.after

@[inherit_doc Element.Spaced]
def Member.Spaced {ν : Type} (m : Member ν) : Prop :=
  Space m.before ∧ Space m.behindKey ∧ m.element.Spaced

/-- What stands behind the first text: the others, each behind a comma. -/
def commas (ts : List (List UInt8)) : List UInt8 := ts.flatMap fun t => 0x2C :: t

/-- `t` is a text of `v`, without white space around it. -/
inductive Text {ι δ : Type} (val : ι → Int) (real : δ → List UInt8 → Prop) :
    Value ι δ → List UInt8 → Prop
  | null : Text val real .null (Http11.ascii "null")
  | true : Text val real (.boolean Bool.true) (Http11.ascii "true")
  | false : Text val real (.boolean Bool.false) (Http11.ascii "false")
  | integer (i : ι) : Text val real (.integer i) (integerText (val i))
  | number {x : δ} {t : List UInt8} (h : real x t) : Text val real (.number x) t
  | string {s t : List UInt8} (h : StringText s t) : Text val real (.string s) (quoted t)
  | emptyArray {w : List UInt8} (hw : Space w) : Text val real (.array []) (0x5B :: (w ++ [0x5D]))
  | array {x : Element (Value ι δ)} {xs : List (Element (Value ι δ))}
      (hspaced : ∀ y ∈ x :: xs, y.Spaced) (htext : ∀ y ∈ x :: xs, Text val real y.value y.text) :
      Text val real (.array ((x :: xs).map Element.value))
        (0x5B :: (x.render ++ (commas (xs.map Element.render) ++ [0x5D])))
  | emptyObject {w : List UInt8} (hw : Space w) :
      Text val real (.object []) (0x7B :: (w ++ [0x7D]))
  | object {m : Member (Value ι δ)} {ms : List (Member (Value ι δ))}
      {es : List (List UInt8 × Value ι δ)} (hspaced : ∀ y ∈ m :: ms, y.Spaced)
      (hkey : ∀ y ∈ m :: ms, StringText y.key y.keyText)
      (htext : ∀ y ∈ m :: ms, Text val real y.element.value y.element.text)
      (hperm : ((m :: ms).map Member.entry).Perm es) :
      Text val real (.object es)
        (0x7B :: (m.render ++ (commas (ms.map Member.render) ++ [0x7D])))

/-! ### Writing a text -/

/-- A hexadecimal digit. -/
def hexDigit (n : UInt8) : UInt8 := if n < 10 then 0x30 + n else 0x41 + (n - 10)

/-- A byte of a string, escaped only where it has to be. -/
def writeByte (b : UInt8) : List UInt8 :=
  if b = 0x22 ∨ b = 0x5C then [0x5C, b]
  else if b < 0x20 then Http11.ascii "\\u00" ++ [hexDigit (b / 16), hexDigit (b % 16)]
  else [b]

/-- Texts between brackets. -/
def bracketed (opening : UInt8) (ts : List (List UInt8)) (closing : UInt8) : List UInt8 :=
  match ts with
  | [] => [opening, closing]
  | t :: ts => opening :: (t ++ (commas ts ++ [closing]))

mutual

/-- A text of a value, without white space. -/
def write {ι δ : Type} (val : ι → Int) (print : δ → List UInt8) : Value ι δ → List UInt8
  | .null => Http11.ascii "null"
  | .boolean true => Http11.ascii "true"
  | .boolean false => Http11.ascii "false"
  | .integer i => integerText (val i)
  | .number x => print x
  | .string s => quoted (s.flatMap writeByte)
  | .array vs => bracketed 0x5B (writeElements val print vs) 0x5D
  | .object ms => bracketed 0x7B (writeMembers val print ms) 0x7D

def writeElements {ι δ : Type} (val : ι → Int) (print : δ → List UInt8) :
    List (Value ι δ) → List (List UInt8)
  | [] => []
  | v :: vs => write val print v :: writeElements val print vs

def writeMembers {ι δ : Type} (val : ι → Int) (print : δ → List UInt8) :
    List (List UInt8 × Value ι δ) → List (List UInt8)
  | [] => []
  | (k, v) :: ms =>
    (quoted (k.flatMap writeByte) ++ 0x3A :: write val print v) :: writeMembers val print ms

end

theorem control_byte : ∀ n < 32, hexValue (hexDigit (UInt8.ofNat n / 16)) = some (n / 16) ∧
    hexValue (hexDigit (UInt8.ofNat n % 16)) = some (n % 16) ∧
      String.utf8EncodeChar (Char.ofNat n) = [UInt8.ofNat n] ∧ (Char.ofNat n).toNat = n := by
  decide

theorem stringText_writeByte (b : UInt8) {s t : List UInt8} (h : StringText s t) :
    StringText (b :: s) (writeByte b ++ t) := by
  rw [writeByte]
  split
  · next hshort =>
    rcases hshort with rfl | rfl
    · exact .short (by decide) h
    · exact .short (by decide) h
  · next hshort =>
    obtain ⟨hquote, hslash⟩ := not_or.mp hshort
    split
    · next hcontrol =>
      -- an escape with four digits
      have hlt : b.toNat < 32 := UInt8.lt_iff_toNat_lt.mp hcontrol
      obtain ⟨hhigh, hlow, hchar, hnat⟩ := control_byte b.toNat hlt
      rw [UInt8.ofNat_toNat] at hhigh hlow hchar
      have hdigits : Hex4 [0x30, 0x30, hexDigit (b / 16), hexDigit (b % 16)]
          (((0 * 16 + 0) * 16 + b.toNat / 16) * 16 + b.toNat % 16) := .digits rfl rfl hhigh hlow
      have hvalue : ((0 * 16 + 0) * 16 + b.toNat / 16) * 16 + b.toNat % 16 =
          (Char.ofNat b.toNat).toNat := by omega
      rw [hvalue] at hdigits
      have hunit := StringText.unit hdigits h
      rw [hchar] at hunit
      exact hunit
    · next hcontrol => exact .raw hquote hslash (UInt8.not_lt.mp hcontrol) h

theorem stringText_write (s : List UInt8) : StringText s (s.flatMap writeByte) := by
  induction s with
  | nil => exact .nil
  | cons b s ih => exact stringText_writeByte b ih

theorem render_of_text {ν : Type} (v : ν) (t : List UInt8) :
    (Element.mk [] v t []).render = t := by
  rw [Element.render, List.nil_append, List.append_nil]

variable {ι δ : Type} {val : ι → Int} {real : δ → List UInt8 → Prop} {print : δ → List UInt8}

mutual

/-- **What is written is a text of the value.** -/
theorem text_write (hreal : ∀ x, real x (print x)) (v : Value ι δ) :
    Text val real v (write val print v) :=
  match v with
  | .null => .null
  | .boolean true => .true
  | .boolean false => .false
  | .integer i => .integer i
  | .number x => .number (hreal x)
  | .string s => .string (stringText_write s)
  | .array vs => by
    obtain ⟨xs, rfl, htexts, hxs⟩ := text_writeElements hreal vs
    rw [write, ← htexts]
    cases xs with
    | nil => exact .emptyArray space_nil
    | cons x xs => exact .array (fun y hy => (hxs y hy).1) fun y hy => (hxs y hy).2
  | .object ms => by
    obtain ⟨ys, rfl, htexts, hys⟩ := text_writeMembers hreal ms
    rw [write, ← htexts]
    cases ys with
    | nil => exact .emptyObject space_nil
    | cons y ys =>
      exact .object (fun y hy => (hys y hy).1) (fun y hy => (hys y hy).2.1)
        (fun y hy => (hys y hy).2.2) (List.Perm.refl _)

theorem text_writeElements (hreal : ∀ x, real x (print x)) (vs : List (Value ι δ)) :
    ∃ xs : List (Element (Value ι δ)), xs.map Element.value = vs ∧
      xs.map Element.render = writeElements val print vs ∧
        ∀ x ∈ xs, x.Spaced ∧ Text val real x.value x.text :=
  match vs with
  | [] => ⟨[], rfl, rfl, fun _ h => absurd h List.not_mem_nil⟩
  | v :: vs => by
    obtain ⟨xs, hvalues, htexts, hxs⟩ := text_writeElements hreal vs
    refine ⟨⟨[], v, write val print v, []⟩ :: xs, congrArg (v :: ·) hvalues, ?_, ?_⟩
    · rw [List.map_cons, htexts, render_of_text, writeElements]
    · exact List.forall_mem_cons.mpr ⟨⟨⟨space_nil, space_nil⟩, text_write hreal v⟩, hxs⟩

theorem text_writeMembers (hreal : ∀ x, real x (print x)) (ms : List (List UInt8 × Value ι δ)) :
    ∃ ys : List (Member (Value ι δ)), ys.map Member.entry = ms ∧
      ys.map Member.render = writeMembers val print ms ∧
        ∀ y ∈ ys, y.Spaced ∧ StringText y.key y.keyText ∧
          Text val real y.element.value y.element.text :=
  match ms with
  | [] => ⟨[], rfl, rfl, fun _ h => absurd h List.not_mem_nil⟩
  | (k, v) :: ms => by
    obtain ⟨ys, hentries, htexts, hys⟩ := text_writeMembers hreal ms
    refine ⟨⟨[], k, k.flatMap writeByte, [], ⟨[], v, write val print v, []⟩⟩ :: ys,
      congrArg ((k, v) :: ·) hentries, ?_, ?_⟩
    · rw [List.map_cons, htexts, Member.render, render_of_text, writeMembers, List.nil_append,
        List.append_nil]
    · exact List.forall_mem_cons.mpr ⟨⟨⟨space_nil, space_nil, space_nil, space_nil⟩,
        stringText_write k, text_write hreal v⟩, hys⟩

end

end JsonText
