import Mathlib.Data.List.DropRight

/-!
# The grammar of HTTP/1.1 responses

A decoder for the bytes of a response: the status line, the header fields and the body, with what
is left behind it.

* `parseField` — a field line is a token, a colon and a value without control characters, from
  which the blanks around it are taken; `Valid` fields are those that a field line can carry;
* `readBody` — where the body ends: at once for 1xx, 204 and 304, behind as many bytes as
  Content-Length says, or with the input;
* `parseResponse_render_iff` — a rendered head decodes to the fields it has been made from if and
  only if all of them are valid.

A response with both Transfer-Encoding and Content-Length is an error; transfer codings are not
decoded.
-/

namespace Http11

/-! ### Characters -/

/-- The bytes of a literal. -/
def ascii (s : String) : List UInt8 := s.toList.map fun c => UInt8.ofNat c.toNat

def isDigit (b : UInt8) : Bool := 0x30 ≤ b && b ≤ 0x39

def isUpper (b : UInt8) : Bool := 0x41 ≤ b && b ≤ 0x5A

def isLower (b : UInt8) : Bool := 0x61 ≤ b && b ≤ 0x7A

/-- The characters of a token besides letters and digits. -/
def tokenMarks : List UInt8 :=
  [0x21, 0x23, 0x24, 0x25, 0x26, 0x27, 0x2A, 0x2B, 0x2D, 0x2E, 0x5E, 0x5F, 0x60, 0x7C, 0x7E]

def isTchar (b : UInt8) : Bool := isDigit b || isUpper b || isLower b || tokenMarks.contains b

/-- Space and tab. -/
def isOws (b : UInt8) : Bool := b == 0x20 || b == 0x09

/-- Blanks, visible characters and the bytes from 0x80 on. -/
def isText (b : UInt8) : Bool := isOws b || 0x21 ≤ b && b != 0x7F

/-- Field names are compared without regard to case. -/
def lower (b : UInt8) : UInt8 := if isUpper b then b + 0x20 else b

/-- The number a list of digits denotes. -/
def number (digits : List UInt8) : Nat := digits.foldl (fun n b => 10 * n + (b.toNat - 0x30)) 0

theorem isDigit_iff (b : UInt8) : isDigit b = true ↔ 0x30 ≤ b.toNat ∧ b.toNat ≤ 0x39 := by
  simp [isDigit, UInt8.le_iff_toNat_le]

theorem isText_of_isDigit {b : UInt8} (h : isDigit b = true) : isText b = true := by
  have hb := (isDigit_iff b).mp h
  have hlow : 0x21 ≤ b := by
    rw [UInt8.le_iff_toNat_le]
    show 0x21 ≤ b.toNat
    omega
  have hne : b ≠ 0x7F := by
    rintro rfl
    exact absurd h (by decide)
  simp [isText, hlow, hne]

theorem not_isOws_of_isDigit {b : UInt8} (h : isDigit b = true) : isOws b = false := by
  by_contra hows
  simp only [isOws, Bool.not_eq_false, Bool.or_eq_true, beq_iff_eq] at hows
  rcases hows with rfl | rfl
  · exact absurd h (by decide)
  · exact absurd h (by decide)

/-- A byte that `p` excludes does not occur where all bytes meet `p`. -/
theorem not_mem_of_all {p : UInt8 → Bool} {xs : List UInt8} (h : xs.all p = true) {b : UInt8}
    (hb : p b = false) : b ∉ xs := by
  intro hmem
  have hp := List.all_eq_true.mp h b hmem
  rw [hb] at hp
  exact absurd hp Bool.false_ne_true

/-! ### Blanks around a value -/

/-- Take the blanks from both ends. -/
def trim (v : List UInt8) : List UInt8 := (v.dropWhile isOws).rdropWhile isOws

/-- There are none. -/
def Trimmed (v : List UInt8) : Prop := v.head?.all (!isOws ·) ∧ v.getLast?.all (!isOws ·)

instance (v : List UInt8) : Decidable (Trimmed v) := by
  unfold Trimmed
  infer_instance

theorem trim_of_trimmed {v : List UInt8} (h : Trimmed v) : trim v = v := by
  cases v with
  | nil => rfl
  | cons b v =>
    obtain ⟨hhead, hlast⟩ := h
    rw [List.getLast?_eq_some_getLast (List.cons_ne_nil b v)] at hlast
    have hb : isOws b = false := by simpa using hhead
    have hend : isOws ((b :: v).getLast (List.cons_ne_nil b v)) = false := by simpa using hlast
    rw [trim, List.dropWhile_cons_of_neg (by simp [hb]), List.rdropWhile_eq_self_iff]
    intro hne
    rw [hend]
    exact Bool.false_ne_true

theorem trimmed_trim (v : List UInt8) : Trimmed (trim v) := by
  by_cases hnil : trim v = []
  · rw [hnil]
    exact ⟨rfl, rfl⟩
  · have hlast := List.rdropWhile_last_not isOws (v.dropWhile isOws) hnil
    -- what is taken from the end leaves the first byte
    obtain ⟨rest, hrest⟩ := List.rdropWhile_prefix isOws (l := v.dropWhile isOws)
    obtain ⟨b, w, hw⟩ := List.exists_cons_of_ne_nil hnil
    have hdrop : v.dropWhile isOws = b :: (w ++ rest) := by
      rw [← hrest, ← List.cons_append, ← hw]
      rfl
    have hhead := List.head?_dropWhile_not isOws v
    rw [hdrop] at hhead
    refine ⟨?_, ?_⟩
    · rw [hw]
      simpa using hhead
    · rw [List.getLast?_eq_some_getLast hnil]
      simpa [trim] using hlast

/-! ### Lines and fields -/

/-- The bytes in front of the first CRLF, and those behind it. -/
def takeLine : List UInt8 → Option (List UInt8 × List UInt8)
  | [] => none
  | b :: bs =>
    if b = 0x0D ∧ bs.head? = some 0x0A then some ([], bs.tail)
    else (takeLine bs).map fun r => (b :: r.1, r.2)

theorem takeLine_append {line : List UInt8} (h : 0x0D ∉ line) (rest : List UInt8) :
    takeLine (line ++ 0x0D :: 0x0A :: rest) = some (line, rest) := by
  induction line with
  | nil => rfl
  | cons b line ih =>
    have hb : b ≠ 0x0D := fun heq => h (heq ▸ List.mem_cons_self)
    have hline : 0x0D ∉ line := fun hmem => h (List.mem_cons_of_mem b hmem)
    rw [List.cons_append, takeLine, if_neg fun hcr => hb hcr.1, ih hline]
    rfl

/-- A name and a value. -/
abbrev Field := List UInt8 × List UInt8

/-- A field line can carry the field: the name is a token, the value has no control characters and
    neither begins nor ends with a blank. -/
structure Valid (f : Field) : Prop where
  ne_nil : f.1 ≠ []
  name : f.1.all isTchar = true
  value : f.2.all isText = true
  trimmed : Trimmed f.2

instance (f : Field) : Decidable (Valid f) :=
  decidable_of_iff (f.1 ≠ [] ∧ f.1.all isTchar = true ∧ f.2.all isText = true ∧ Trimmed f.2)
    ⟨fun h => ⟨h.1, h.2.1, h.2.2.1, h.2.2.2⟩, fun h => ⟨h.ne_nil, h.name, h.value, h.trimmed⟩⟩

/-- The line of a field. -/
def fieldLine (f : Field) : List UInt8 := f.1 ++ ascii ": " ++ f.2

def parseField (line : List UInt8) : Option Field :=
  let name := line.takeWhile (· != 0x3A)
  let value := trim (line.drop (name.length + 1))
  if 0x3A ∈ line ∧ name ≠ [] ∧ name.all isTchar = true ∧ value.all isText = true then
    some (name, value)
  else none

theorem valid_of_parseField {line : List UInt8} {f : Field} (h : parseField line = some f) :
    Valid f := by
  unfold parseField at h
  dsimp only at h
  split at h
  · rename_i hcond
    obtain ⟨-, hne, hname, hvalue⟩ := hcond
    obtain rfl := Option.some.inj h
    exact ⟨hne, hname, hvalue, trimmed_trim _⟩
  · cases h

theorem parseField_fieldLine {f : Field} (h : Valid f) : parseField (fieldLine f) = some f := by
  obtain ⟨name, value⟩ := f
  have hcolon : ∀ b ∈ name, (b != 0x3A) = true := by
    intro b hb
    have htchar := List.all_eq_true.mp h.name b hb
    rw [bne_iff_ne]
    rintro rfl
    exact absurd htchar (by decide)
  have hline : fieldLine (name, value) = name ++ 0x3A :: 0x20 :: value := by
    show name ++ [0x3A, 0x20] ++ value = _
    rw [List.append_assoc]
    rfl
  have htake : (fieldLine (name, value)).takeWhile (· != 0x3A) = name := by
    rw [hline, List.takeWhile_append_of_pos hcolon]
    simp
  have hdrop : (fieldLine (name, value)).drop (name.length + 1) = 0x20 :: value := by
    rw [hline, ← List.drop_drop, List.drop_left]
    rfl
  have htrim : trim (0x20 :: value) = value := by
    rw [trim, List.dropWhile_cons_of_pos rfl]
    exact trim_of_trimmed h.trimmed
  have hmem : 0x3A ∈ fieldLine (name, value) := by
    rw [hline]
    simp
  unfold parseField
  simp only [htake, hdrop, htrim]
  rw [if_pos ⟨hmem, h.ne_nil, h.name, h.value⟩]

/-- A field line has no end inside. -/
theorem not_mem_fieldLine {f : Field} (h : Valid f) : 0x0D ∉ fieldLine f := by
  intro hmem
  rcases List.mem_append.mp hmem with hmem | hvalue
  · rcases List.mem_append.mp hmem with hname | hsep
    · exact not_mem_of_all h.name (by decide) hname
    · exact absurd hsep (by decide)
  · exact not_mem_of_all h.value (by decide) hvalue

/-- The fields in front of an empty line, and what stands behind it. -/
def parseFields : Nat → List UInt8 → Option (List Field × List UInt8)
  | 0, _ => none
  | fuel + 1, bs =>
    (takeLine bs).bind fun r =>
      if r.1 = [] then some ([], r.2)
      else (parseField r.1).bind fun f =>
        (parseFields fuel r.2).map fun t => (f :: t.1, t.2)

theorem valid_of_parseFields {fuel : Nat} {bs rest : List UInt8} {fs : List Field}
    (h : parseFields fuel bs = some (fs, rest)) : ∀ f ∈ fs, Valid f := by
  induction fuel generalizing bs fs with
  | zero => cases h
  | succ fuel ih =>
    rw [parseFields, Option.bind_eq_some_iff] at h
    obtain ⟨⟨line, bs'⟩, -, h⟩ := h
    dsimp only at h
    split at h
    · obtain ⟨rfl, -⟩ := Prod.mk.inj (Option.some.inj h)
      exact fun f hf => absurd hf List.not_mem_nil
    · rw [Option.bind_eq_some_iff] at h
      obtain ⟨f, hf, h⟩ := h
      rw [Option.map_eq_some_iff] at h
      obtain ⟨⟨gs, rest'⟩, hgs, h⟩ := h
      obtain ⟨rfl, rfl⟩ := Prod.mk.inj h
      exact List.forall_mem_cons.mpr ⟨valid_of_parseField hf, ih hgs⟩

/-- The lines of the fields, and the empty line. -/
def renderFields (fs : List Field) : List UInt8 :=
  fs.flatMap (fun f => fieldLine f ++ ascii "\r\n") ++ ascii "\r\n"

theorem parseFields_renderFields {fs : List Field} (h : ∀ f ∈ fs, Valid f) (rest : List UInt8)
    {fuel : Nat} (hfuel : fs.length < fuel) :
    parseFields fuel (renderFields fs ++ rest) = some (fs, rest) := by
  induction fs generalizing fuel with
  | nil =>
    obtain ⟨fuel, rfl⟩ := Nat.exists_eq_succ_of_ne_zero (Nat.ne_of_gt hfuel)
    rfl
  | cons f fs ih =>
    obtain ⟨fuel, rfl⟩ := Nat.exists_eq_succ_of_ne_zero (Nat.ne_of_gt (Nat.zero_lt_of_lt hfuel))
    obtain ⟨hf, hfs⟩ := List.forall_mem_cons.mp h
    have hbytes : renderFields (f :: fs) ++ rest =
        fieldLine f ++ 0x0D :: 0x0A :: (renderFields fs ++ rest) := by
      show (fieldLine f ++ [0x0D, 0x0A] ++ fs.flatMap _) ++ _ ++ rest = _
      simp only [renderFields, List.append_assoc]
      rfl
    have hline : fieldLine f ≠ [] := by
      intro hnil
      have hname := (List.append_eq_nil_iff.mp (List.append_eq_nil_iff.mp hnil).1).1
      exact hf.ne_nil hname
    rw [hbytes, parseFields, takeLine_append (not_mem_fieldLine hf), Option.bind_some]
    dsimp only
    rw [if_neg hline, parseField_fieldLine hf, Option.bind_some,
      ih hfs (Nat.lt_of_succ_lt_succ hfuel)]
    rfl

/-! ### The status line -/

/-- The version, three digits and the reason. -/
def statusLine (digits reason : List UInt8) : List UInt8 :=
  ascii "HTTP/1.1 " ++ digits ++ ascii " " ++ reason

def parseStatusLine (line : List UInt8) : Option (Nat × List UInt8) :=
  let digits := (line.drop 9).take 3
  let reason := line.drop 13
  if line.take 9 = ascii "HTTP/1.1 " ∧ digits.length = 3 ∧ digits.all isDigit = true ∧
      (line.drop 12).head? = some 0x20 ∧ reason.all isText = true then
    some (number digits, reason)
  else none

/-- Three digits. -/
structure StatusCode where
  digits : List UInt8
  length_eq : digits.length = 3
  all_isDigit : digits.all isDigit = true

theorem parseStatusLine_statusLine (code : StatusCode) {reason : List UInt8}
    (hreason : reason.all isText = true) :
    parseStatusLine (statusLine code.digits reason) = some (number code.digits, reason) := by
  obtain ⟨digits, hlen, hdigits⟩ := code
  have hline : statusLine digits reason = ascii "HTTP/1.1 " ++ (digits ++ 0x20 :: reason) := by
    rw [statusLine, List.append_assoc, List.append_assoc]
    rfl
  have hdrop : (statusLine digits reason).drop 9 = digits ++ 0x20 :: reason := by
    rw [hline]
    rfl
  have htake : ((statusLine digits reason).drop 9).take 3 = digits := by
    rw [hdrop, ← hlen, List.take_left]
  have hrest : (statusLine digits reason).drop 13 = reason := by
    have hsplit : (statusLine digits reason).drop 13 =
        (((statusLine digits reason).drop 9).drop 3).drop 1 := by
      rw [List.drop_drop, List.drop_drop]
    rw [hsplit, hdrop, ← hlen, List.drop_left]
    rfl
  have hblank : ((statusLine digits reason).drop 12).head? = some 0x20 := by
    have hsplit : (statusLine digits reason).drop 12 =
        ((statusLine digits reason).drop 9).drop 3 := by
      rw [List.drop_drop]
    rw [hsplit, hdrop, ← hlen, List.drop_left]
    rfl
  unfold parseStatusLine
  simp only [htake, hrest]
  rw [if_pos ⟨rfl, hlen, hdigits, hblank, hreason⟩]

/-- A status line has no end inside. -/
theorem not_mem_statusLine (code : StatusCode) {reason : List UInt8}
    (hreason : reason.all isText = true) : 0x0D ∉ statusLine code.digits reason := by
  intro hmem
  rcases List.mem_append.mp hmem with hmem | hmem
  · rcases List.mem_append.mp hmem with hmem | hmem
    · rcases List.mem_append.mp hmem with hmem | hmem
      · exact absurd hmem (by decide)
      · exact not_mem_of_all code.all_isDigit (by decide) hmem
    · exact absurd hmem (by decide)
  · exact not_mem_of_all hreason (by decide) hmem

/-! ### The body -/

/-- Responses that end with their head. -/
def bodiless (code : Nat) : Bool := code / 100 == 1 || code == 204 || code == 304

/-- The fields of a name; `name` is in lower case. -/
def named (name : List UInt8) (fs : List Field) : List Field :=
  fs.filter fun f => f.1.map lower == name

/-- The length that Content-Length fields of one value declare. -/
def declaredLength : List Field → Option Nat
  | [] => none
  | f :: fs =>
    if fs.all (·.2 == f.2) = true ∧ f.2 ≠ [] ∧ f.2.all isDigit = true then some (number f.2)
    else none

/-- The body behind a head, and what stands behind the body. -/
def readBody (code : Nat) (fs : List Field) (bs : List UInt8) :
    Option (List UInt8 × List UInt8) :=
  if bodiless code then some ([], bs)
  else if named (ascii "transfer-encoding") fs ≠ [] then none
  else if named (ascii "content-length") fs = [] then some (bs, [])
  else (declaredLength (named (ascii "content-length") fs)).bind fun n =>
    if n ≤ bs.length then some (bs.take n, bs.drop n) else none

/-- The digits of a number. -/
def decimal (n : Nat) : List UInt8 := ascii (toString n)

theorem decimal_eq (n : Nat) :
    decimal n = (Nat.toDigits 10 n).map fun c => UInt8.ofNat c.toNat := by
  rw [decimal, ascii]
  congr 1
  exact Nat.toList_repr

theorem decimal_ne_nil (n : Nat) : decimal n ≠ [] := by
  rw [decimal_eq, ne_eq, List.map_eq_nil_iff]
  exact Nat.toDigits_ne_nil

/-- The bytes of the digits. -/
theorem toNat_of_mem_toDigits {n : Nat} {c : Char} (hc : c ∈ Nat.toDigits 10 n) :
    (UInt8.ofNat c.toNat).toNat = c.toNat ∧ 0x30 ≤ c.toNat ∧ c.toNat ≤ 0x39 := by
  have hdigit := Nat.isDigit_of_mem_toDigits (by decide) (by decide) hc
  obtain ⟨hlow, hhigh⟩ := Char.isDigit_iff_toNat.mp hdigit
  refine ⟨?_, hlow, hhigh⟩
  rw [UInt8.toNat_ofNat']
  exact Nat.mod_eq_of_lt (Nat.lt_of_le_of_lt hhigh (by decide))

theorem all_isDigit_decimal (n : Nat) : (decimal n).all isDigit = true := by
  rw [decimal_eq, List.all_map, List.all_eq_true]
  intro c hc
  obtain ⟨hbyte, hlow, hhigh⟩ := toNat_of_mem_toDigits hc
  show isDigit (UInt8.ofNat c.toNat) = true
  rw [isDigit_iff, hbyte]
  exact ⟨hlow, hhigh⟩

theorem number_decimal (n : Nat) : number (decimal n) = n := by
  have hfold : ∀ cs : List Char, (∀ c ∈ cs, (UInt8.ofNat c.toNat).toNat = c.toNat) → ∀ m,
      (cs.map fun c => UInt8.ofNat c.toNat).foldl (fun n b => 10 * n + (b.toNat - 0x30)) m =
        Nat.ofDigitChars 10 cs m := by
    intro cs
    induction cs with
    | nil => exact fun _ _ => rfl
    | cons c cs ih =>
      intro hcs m
      obtain ⟨hc, hcs⟩ := List.forall_mem_cons.mp hcs
      rw [List.map_cons, List.foldl_cons, ih hcs, Nat.ofDigitChars_cons, hc]
      rfl
  rw [number, decimal_eq, hfold _ (fun c hc => (toNat_of_mem_toDigits hc).1) 0]
  exact Nat.ofDigitChars_ten_toDigits

/-- A number other than 0 is written without a leading zero. -/
theorem decimal_head {n : Nat} (hn : 0 < n) :
    ∃ d ds, decimal n = d :: ds ∧ 0x31 ≤ d.toNat ∧ d.toNat ≤ 0x39 := by
  induction n using Nat.strong_induction_on with
  | _ n ih =>
    by_cases hlt : n < 10
    · rw [decimal_eq, Nat.toDigits_of_lt_base hlt]
      have hdigit : ∀ m < 10, 0 < m → 0x31 ≤ (UInt8.ofNat m.digitChar.toNat).toNat ∧
          (UInt8.ofNat m.digitChar.toNat).toNat ≤ 0x39 := by decide
      exact ⟨_, [], rfl, hdigit n hlt hn⟩
    · have hge : 10 ≤ n := by omega
      obtain ⟨d, ds, hd, hrange⟩ := ih (n / 10) (by omega) (by omega)
      rw [decimal_eq] at hd
      rw [decimal_eq, Nat.toDigits_of_base_le (by decide) hge, List.map_append, hd]
      exact ⟨d, _, rfl, hrange⟩

/-- The field that declares the length of a body. -/
def contentLength (n : Nat) : Field := (ascii "Content-Length", decimal n)

theorem valid_contentLength (n : Nat) : Valid (contentLength n) := by
  have htext : ∀ b ∈ decimal n, isText b = true := fun b hb =>
    isText_of_isDigit (List.all_eq_true.mp (all_isDigit_decimal n) b hb)
  have hows : ∀ b ∈ decimal n, isOws b = false := fun b hb =>
    not_isOws_of_isDigit (List.all_eq_true.mp (all_isDigit_decimal n) b hb)
  have hne : ascii "Content-Length" ≠ [] := by decide
  have hname : (ascii "Content-Length").all isTchar = true := by decide
  refine ⟨hne, hname, List.all_eq_true.mpr htext, ?_, ?_⟩
  · show (decimal n).head?.all (!isOws ·) = true
    rw [List.head?_eq_some_head (decimal_ne_nil n), Option.all_some, hows _ (List.head_mem _)]
    rfl
  · show (decimal n).getLast?.all (!isOws ·) = true
    rw [List.getLast?_eq_some_getLast (decimal_ne_nil n), Option.all_some,
      hows _ (List.getLast_mem _)]
    rfl

theorem named_append (name : List UInt8) (fs gs : List Field) :
    named name (fs ++ gs) = named name fs ++ named name gs :=
  List.filter_append _ _

theorem named_eq_nil_iff {name : List UInt8} {fs : List Field} :
    named name fs = [] ↔ ∀ f ∈ fs, f.1.map lower ≠ name := by
  simp [named, List.filter_eq_nil_iff]

/-- **Where the body ends.**  Behind fields that are followed by the Content-Length of the body, it
    is the whole rest and Content-Length stands there once, if and only if no field before has that
    name, and none is a Transfer-Encoding; of a response without a body, if it is empty. -/
theorem readBody_contentLength_iff (code : Nat) (fs : List Field) (body : List UInt8) :
    readBody code (fs ++ [contentLength body.length]) body = some (body, []) ∧
        named (ascii "content-length") (fs ++ [contentLength body.length]) =
          [contentLength body.length] ↔
      named (ascii "content-length") fs = [] ∧
        if bodiless code = true then body = [] else named (ascii "transfer-encoding") fs = [] := by
  have hlength : named (ascii "content-length") (fs ++ [contentLength body.length]) =
      named (ascii "content-length") fs ++ [contentLength body.length] := by
    rw [named_append]
    rfl
  have htransfer : named (ascii "transfer-encoding") (fs ++ [contentLength body.length]) =
      named (ascii "transfer-encoding") fs := by
    rw [named_append]
    exact List.append_nil _
  have honce : named (ascii "content-length") (fs ++ [contentLength body.length]) =
      [contentLength body.length] ↔ named (ascii "content-length") fs = [] := by
    rw [hlength]
    exact List.append_left_eq_self
  rw [honce, and_comm]
  apply and_congr_right
  intro hnone
  rw [readBody, hlength, htransfer, hnone, List.nil_append]
  split
  · -- nothing is read, whatever the fields say
    simp
  · have hdeclared : declaredLength [contentLength body.length] = some body.length := by
      show (if _ then _ else _) = _
      rw [if_pos ⟨rfl, decimal_ne_nil _, all_isDigit_decimal _⟩]
      exact congrArg some (number_decimal _)
    rw [hdeclared]
    by_cases hnil : named (ascii "transfer-encoding") fs = []
    · simp [hnil]
    · simp [hnil]

/-! ### Responses -/

structure Response where
  code : Nat
  reason : List UInt8
  fields : List Field
  body : List UInt8
deriving DecidableEq, Repr

/-- The response a byte string begins with, and what stands behind it. -/
def parseResponse (bs : List UInt8) : Option (Response × List UInt8) :=
  (takeLine bs).bind fun line =>
    (parseStatusLine line.1).bind fun status =>
      (parseFields line.2.length line.2).bind fun fields =>
        (readBody status.1 fields.1 fields.2).map fun body =>
          (⟨status.1, status.2, fields.1, body.1⟩, body.2)

/-- The head of a response. -/
def renderHead (digits reason : List UInt8) (fs : List Field) : List UInt8 :=
  statusLine digits reason ++ ascii "\r\n" ++ renderFields fs

theorem length_le_renderFields (fs : List Field) : fs.length < (renderFields fs).length := by
  have hlines : fs.length ≤ (fs.flatMap fun f => fieldLine f ++ ascii "\r\n").length := by
    induction fs with
    | nil => exact Nat.le_refl _
    | cons f fs ih =>
      rw [List.flatMap_cons, List.length_append, List.length_append, List.length_cons]
      have hend : (ascii "\r\n").length = 2 := rfl
      omega
  rw [renderFields, List.length_append]
  have hend : (ascii "\r\n").length = 2 := rfl
  omega

/-- A head of valid fields is read back, and the body read behind it. -/
theorem parseResponse_renderHead (code : StatusCode) {reason : List UInt8}
    (hreason : reason.all isText = true) {fs : List Field} (hfs : ∀ f ∈ fs, Valid f)
    (bs : List UInt8) :
    parseResponse (renderHead code.digits reason fs ++ bs) =
      (readBody (number code.digits) fs bs).map fun body =>
        (⟨number code.digits, reason, fs, body.1⟩, body.2) := by
  have hbytes : renderHead code.digits reason fs ++ bs =
      statusLine code.digits reason ++ 0x0D :: 0x0A :: (renderFields fs ++ bs) := by
    show (statusLine code.digits reason ++ [0x0D, 0x0A] ++ renderFields fs) ++ bs = _
    simp only [List.append_assoc]
    rfl
  have hfuel : fs.length < (renderFields fs ++ bs).length := by
    rw [List.length_append]
    exact Nat.lt_of_lt_of_le (length_le_renderFields fs) (Nat.le_add_right _ _)
  rw [parseResponse, hbytes, takeLine_append (not_mem_statusLine code hreason), Option.bind_some,
    parseStatusLine_statusLine code hreason, Option.bind_some]
  dsimp only
  rw [parseFields_renderFields hfs bs hfuel, Option.bind_some]

/-- Every field that has been read is valid. -/
theorem valid_of_parseResponse {bs rest : List UInt8} {r : Response}
    (h : parseResponse bs = some (r, rest)) : ∀ f ∈ r.fields, Valid f := by
  simp only [parseResponse, Option.bind_eq_some_iff, Option.map_eq_some_iff] at h
  obtain ⟨line, -, status, -, fields, hfields, body, -, heq⟩ := h
  obtain ⟨rfl, -⟩ := Prod.mk.inj heq
  exact valid_of_parseFields hfields

/-- **What a rendered response decodes to.**  It is the one it has been made from, with nothing
    behind it, if and only if all fields are valid and the body ends where the response does. -/
theorem parseResponse_render_iff (code : StatusCode) {reason : List UInt8}
    (hreason : reason.all isText = true) (fs : List Field) (body : List UInt8) :
    parseResponse (renderHead code.digits reason fs ++ body) =
        some (⟨number code.digits, reason, fs, body⟩, []) ↔
      (∀ f ∈ fs, Valid f) ∧ readBody (number code.digits) fs body = some (body, []) := by
  constructor
  · intro h
    have hfs : ∀ f ∈ fs, Valid f := valid_of_parseResponse h
    refine ⟨hfs, ?_⟩
    rw [parseResponse_renderHead code hreason hfs, Option.map_eq_some_iff] at h
    obtain ⟨⟨b, rest⟩, hread, heq⟩ := h
    obtain ⟨hresponse, rfl⟩ := Prod.mk.inj heq
    obtain rfl : b = body := congrArg Response.body hresponse
    exact hread
  · rintro ⟨hfs, hread⟩
    rw [parseResponse_renderHead code hreason hfs, hread]
    rfl

end Http11
