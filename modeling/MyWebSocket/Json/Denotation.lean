import MyWebSocket.Json.Refusal
import MyWebSocket.Json.TextReading

namespace MyWebSocket

/-!
# What a payload denotes

When `getJsonMessage` returns only what the payload stands for.

* `PartText`, `Denotes` — a text of a value, as RFC 8259 reads it: an integer is itself, a string
  is made of characters, and an object has one value under each of its names;
* `JsonAt`, `Unaltered` — where the parser comes to a value, its integers have room in an `int`
  and the names of its objects differ;
* `partText_of_reads`, `reads_of_partText` — what is read unaltered, a character in each round of
  `parse_string`, is what the text denotes, and such texts are read that way;
* `getJsonMessage_denotes_iff` — so these are the payloads it gets right, with nothing but white
  space behind the value and no string that breaks off.
-/

open JsonGrammar (Document IntPart IntegerText RealText Utf8)
open JsonText (Hex4 Space StringText quoted)

variable {δ : Type} {good : Bytes → Prop}

/-! ### Texts and what they denote -/

/-- `t` is a text of the part, without white space around it.  The numbers with a fraction or an
    exponent are what `fp` reads. -/
inductive PartText (fp : DoubleText δ) : JsonPart δ → Bytes → Prop
  | true : PartText fp (.value (.boolean Bool.true)) (str "true")
  | false : PartText fp (.value (.boolean Bool.false)) (str "false")
  | null : PartText fp (.value .null) (str "null")
  | integer {t : Bytes} {i : Int32} (h : IntegerText t i.toInt) :
      PartText fp (.value (.integer i)) t
  | number {t : Bytes} {x : δ} (h : RealText t) (hx : fp.read t = some x) :
      PartText fp (.value (.number x)) t
  | string {s t : Bytes} (h : StringText s t) : PartText fp (.value (.string s)) (quoted t)
  | emptyArray {w : Bytes} (hw : Space w) :
      PartText fp (.value (.array [])) (0x5B :: (w ++ [0x5D]))
  | array {vs : List (LeptValue δ)} {w t w' : Bytes} (hw : Space w)
      (h : PartText fp (.elements vs) t) (hw' : Space w') :
      PartText fp (.value (.array vs)) (0x5B :: (w ++ (t ++ (w' ++ [0x5D]))))
  | emptyObject {w : Bytes} (hw : Space w) :
      PartText fp (.value (.object [])) (0x7B :: (w ++ [0x7D]))
  | object {ms obj : List (Bytes × LeptValue δ)} {w t w' : Bytes} (hw : Space w)
      (h : PartText fp (.entries ms) t) (hw' : Space w')
      -- the members in any order, no name twice
      (hordered : OrderedMap.Ordered obj) (hperm : ms.Perm obj) :
      PartText fp (.value (.object obj)) (0x7B :: (w ++ (t ++ (w' ++ [0x7D]))))
  | lastElement {v : LeptValue δ} {t : Bytes} (h : PartText fp (.value v) t) :
      PartText fp (.elements [v]) t
  | element {v : LeptValue δ} {vs : List (LeptValue δ)} {t w w' ts : Bytes}
      (h : PartText fp (.value v) t) (hw : Space w) (hw' : Space w')
      (hrest : PartText fp (.elements vs) ts) :
      PartText fp (.elements (v :: vs)) (t ++ (w ++ 0x2C :: (w' ++ ts)))
  | lastMember {k : Bytes} {v : LeptValue δ} {kt w w' t : Bytes} (hk : StringText k kt)
      (hw : Space w) (hw' : Space w') (h : PartText fp (.value v) t) :
      PartText fp (.entries [(k, v)]) (quoted kt ++ (w ++ 0x3A :: (w' ++ t)))
  | member {k : Bytes} {v : LeptValue δ} {ms : List (Bytes × LeptValue δ)}
      {kt w w' t w₁ w₂ ts : Bytes} (hk : StringText k kt) (hw : Space w) (hw' : Space w')
      (h : PartText fp (.value v) t) (hw₁ : Space w₁) (hw₂ : Space w₂)
      (hrest : PartText fp (.entries ms) ts) :
      PartText fp (.entries ((k, v) :: ms))
        (quoted kt ++ (w ++ 0x3A :: (w' ++ (t ++ (w₁ ++ 0x2C :: (w₂ ++ ts))))))

/-- The payload is one document, and it denotes `v`. -/
def Denotes (fp : DoubleText δ) (payload : Bytes) (v : LeptValue δ) : Prop :=
  ∃ w t w', Space w ∧ PartText fp (.value v) t ∧ Space w' ∧ payload = w ++ (t ++ w')

/-! ### The values the parser comes to -/

/-- Reading such a part of `tmp`, the parser comes to a value at the beginning of the last
    argument. -/
inductive JsonAt (fp : DoubleText δ) : PartKind → Bytes → Bytes → Prop
  | here (tmp : Bytes) : JsonAt fp .value tmp tmp
  | array {tmp x : Bytes} (h : JsonAt fp .elements (skipSpace tmp) x) :
      JsonAt fp .value (0x5B :: tmp) x
  | object {tmp x : Bytes} (h : JsonAt fp .entries (skipSpace tmp) x) :
      JsonAt fp .value (0x7B :: tmp) x
  | element {tmp x : Bytes} (h : JsonAt fp .value tmp x) : JsonAt fp .elements tmp x
  | elements {tmp tmp₁ tmp₂ x : Bytes} {v : LeptValue δ}
      (h : JsonReads AnyRound fp tmp (.value v) tmp₁) (hcomma : skipSpace tmp₁ = 0x2C :: tmp₂)
      (hrest : JsonAt fp .elements (skipSpace tmp₂) x) : JsonAt fp .elements tmp x
  | entry {tmp tmp₁ tmp₂ k x : Bytes} (hkey : ReadsString AnyRound tmp k tmp₁)
      (hcolon : skipSpace tmp₁ = 0x3A :: tmp₂) (h : JsonAt fp .value (skipSpace tmp₂) x) :
      JsonAt fp .entries (0x22 :: tmp) x
  | entries {tmp tmp₁ tmp₂ tmp₃ tmp₄ k x : Bytes} {v : LeptValue δ}
      (hkey : ReadsString AnyRound tmp k tmp₁) (hcolon : skipSpace tmp₁ = 0x3A :: tmp₂)
      (h : JsonReads AnyRound fp (skipSpace tmp₂) (.value v) tmp₃)
      (hcomma : skipSpace tmp₃ = 0x2C :: tmp₄) (hrest : JsonAt fp .entries (skipSpace tmp₄) x) :
      JsonAt fp .entries (0x22 :: tmp) x

/-- If the text begins with an integer, it has room in an `int`. -/
def IntegerFits (tmp : Bytes) : Prop :=
  ∀ t rest n, tmp = t ++ rest → LeptContext.scanNumber tmp = some (rest, true) →
    IntegerText t n → -2 ^ 31 ≤ n ∧ n < 2 ^ 31

/-- If the text begins with an object, its names differ. -/
def NamesDiffer (fp : DoubleText δ) (tmp : Bytes) : Prop :=
  ∀ tmp' ms rest, tmp = 0x7B :: tmp' → JsonReads AnyRound fp (skipSpace tmp') (.entries ms) rest →
    (ms.map Prod.fst).Nodup

/-- No integer is cut off and no member dropped while such a part is read. -/
def Unaltered (fp : DoubleText δ) (kind : PartKind) (tmp : Bytes) : Prop :=
  ∀ x, JsonAt fp kind tmp x → IntegerFits x ∧ NamesDiffer fp x

/-! ### Strings -/

theorem exists_char {u : Nat} (h : u < 0x110000) (hu : ¬ (0xD800 ≤ u ∧ u ≤ 0xDFFF)) :
    ∃ c : Char, c.toNat = u := by
  have hvalid : u.isValidChar := by
    rcases Nat.lt_or_ge u 0xD800 with hlow | hhigh
    · exact .inl hlow
    · exact .inr ⟨by omega, h⟩
  exact ⟨Char.ofNatAux u hvalid, rfl⟩

theorem hex4_lt {ds : Bytes} {n : Nat} (h : Hex4 ds n) : n < 0x10000 := by
  obtain ⟨ha, hb, hc, hd⟩ := h
  obtain ⟨-, hi⟩ := hexDigit_of_hexValue ha
  obtain ⟨-, hj⟩ := hexDigit_of_hexValue hb
  obtain ⟨-, hk⟩ := hexDigit_of_hexValue hc
  obtain ⟨-, hl⟩ := hexDigit_of_hexValue hd
  omega

/-- The number of an escape whose digits are hexadecimal. -/
theorem hex4_of_parseHex4 {ds rest : Bytes} {u : Nat} (h : parseHex4 (ds ++ rest) = some (u, rest))
    (hlength : ds.length = 4) (hds : ∀ b ∈ ds, JsonGrammar.IsHexDigit b) : Hex4 ds u := by
  obtain ⟨n, hn⟩ := JsonGrammar.hex4_of_digits hlength hds
  rw [parseHex4_of_hex4 hn] at h
  obtain rfl : n = u := congrArg Prod.fst (Option.some.inj h)
  exact hn

/-- Two halves of a surrogate pair make a character. -/
theorem exists_pair {u u2 : Nat} (hu : 0xD800 ≤ u ∧ u ≤ 0xDBFF) (hu2 : 0xDC00 ≤ u2 ∧ u2 ≤ 0xDFFF)
    {bs : Bytes}
    (hbs : encodeUtf8 ((((u - 0xD800) <<< 10) ||| (u2 - 0xDC00)) + 0x10000) = some bs) :
    ∃ (c : Char) (high low : Nat), u = 0xD800 + high ∧ u2 = 0xDC00 + low ∧ high < 0x400 ∧
      low < 0x400 ∧ c.toNat = 0x10000 + high * 0x400 + low ∧ bs = String.utf8EncodeChar c := by
  obtain ⟨high, rfl⟩ := Nat.exists_eq_add_of_le hu.1
  obtain ⟨low, rfl⟩ := Nat.exists_eq_add_of_le hu2.1
  have hhigh : high < 0x400 := by omega
  have hlow : low < 0x400 := by omega
  obtain ⟨c, hc⟩ := exists_char (u := 0x10000 + high * 0x400 + low) (by omega) (by omega)
  rw [pair_value hlow, ← hc, encodeUtf8_char] at hbs
  exact ⟨c, high, low, rfl, rfl, hhigh, hlow, hc, (Option.some.inj hbs).symm⟩

/-- **What a round reads is a character or a part of one**, and the text of it. -/
theorem text_of_round {tmp bs rest : Bytes} (h : stringRound tmp = .push bs rest)
    (hchar : CharRound tmp) :
    ∃ x, tmp = x ++ rest ∧ ∀ s t, StringText s t → StringText (bs ++ s) (x ++ t) := by
  obtain ⟨hhex, hlone⟩ := hchar
  rcases hexRound_cases h hhex with ⟨b, rfl, rfl, hquote, hslash, hcontrol⟩ | ⟨e, b, rfl, rfl, he⟩ |
    ⟨ds, u, rfl, hlength, hds, hu, hhigh, hbs⟩ |
    ⟨ds, es, u, u2, rfl, ⟨hlength, hds⟩, ⟨hlength', hes⟩, hu, hu2, hhigh, hlow, hbs⟩
  · exact ⟨[b], rfl, fun s t => .raw hquote hslash (UInt8.not_lt.mp hcontrol)⟩
  · exact ⟨[0x5C, e], rfl, fun s t => .short he⟩
  · have hds := hex4_of_parseHex4 hu hlength hds
    have hlt := hex4_lt hds
    -- neither half of a surrogate pair
    have hlow : ¬ (0xDC00 ≤ u ∧ u ≤ 0xDFFF) := fun hlow => hlone ⟨rfl, u, _, hu, hlow⟩
    obtain ⟨c, rfl⟩ := exists_char (u := u) (by omega) (by omega)
    rw [encodeUtf8_char] at hbs
    obtain rfl := Option.some.inj hbs
    exact ⟨0x5C :: 0x75 :: ds, rfl, fun s t => .unit hds⟩
  · have hds := hex4_of_parseHex4 hu hlength hds
    have hes := hex4_of_parseHex4 hu2 hlength' hes
    obtain ⟨c, high, low, rfl, rfl, hhigh, hlow, hc, rfl⟩ := exists_pair hhigh hlow hbs
    refine ⟨0x5C :: 0x75 :: (ds ++ 0x5C :: 0x75 :: es), by simp, fun s t ht => ?_⟩
    have htext : 0x5C :: 0x75 :: (ds ++ 0x5C :: 0x75 :: es) ++ t =
        0x5C :: 0x75 :: (ds ++ 0x5C :: 0x75 :: (es ++ t)) := by simp
    rw [htext]
    exact .pair hds hes hhigh hlow hc ht

theorem text_of_readsString {tmp s rest : Bytes} (h : ReadsString CharRound tmp s rest) :
    ∃ t, tmp = t ++ 0x22 :: rest ∧ StringText s t := by
  induction h with
  | close rest => exact ⟨[], rfl, .nil⟩
  | push h hchar _ ih =>
    obtain ⟨x, rfl, hx⟩ := text_of_round h hchar
    obtain ⟨t, rfl, ht⟩ := ih
    exact ⟨x ++ t, (List.append_assoc ..).symm, hx _ t ht⟩

/-! ### Numbers -/

theorem integerText_eq {t : Bytes} {n : Int} (h : IntegerText t n) :
    n = if t.headD 0 = 0x2D then -(Http11.number t.tail : Int) else Http11.number t := by
  cases h with
  | nonneg h =>
    rw [if_neg]
    cases h with
    | zero => decide
    | digits hd _ _ => exact ne_of_class hd (by decide)
  | neg h => rfl

theorem stoll_of_integerText {t : Bytes} {n : Int} (h : IntegerText t n) :
    LeptContext.stoll t = if -2 ^ 63 ≤ n ∧ n < 2 ^ 63 then some n else none := by
  rw [LeptContext.stoll, ← integerText_eq h]

theorem parts_of_integerText {t : Bytes} {n : Int} (h : IntegerText t n) :
    ∃ minus int, (minus = [] ∨ minus = [0x2D]) ∧ IntPart int ∧
      t = minus ++ (int ++ ([] ++ [])) := by
  cases h with
  | nonneg h => exact ⟨[], _, .inl rfl, h, by simp⟩
  | neg h => exact ⟨[0x2D], _, .inr rfl, h, by simp⟩

/-- An integer is read to its end. -/
theorem scanNumber_of_integerText {t r : Bytes} {n : Int} (h : IntegerText t n)
    (hr : EndsNumber r) : LeptContext.scanNumber (t ++ r) = some (r, true) := by
  obtain ⟨minus, int, hminus, hint, rfl⟩ := parts_of_integerText h
  exact scanNumber_of_parts hminus hint .none .none hr

/-- So is a number with a fraction or an exponent. -/
theorem scanNumber_of_realText {t r : Bytes} (h : RealText t) (hr : EndsNumber r) :
    LeptContext.scanNumber (t ++ r) = some (r, false) := by
  obtain ⟨hminus, hint, hfrac, hexp, hreal⟩ := h
  rw [scanNumber_of_parts hminus hint hfrac hexp hr, hreal]

/-- The two kinds of numbers, as the parser tells them apart. -/
theorem text_of_scanNumber {tmp rest : Bytes} {i : Bool}
    (h : LeptContext.scanNumber tmp = some (rest, i)) :
    ∃ t, tmp = t ++ rest ∧ (i = true ∧ (∃ n, IntegerText t n) ∨ i = false ∧ RealText t) := by
  obtain ⟨minus, int, frac, exp, rfl, hminus, hint, hfrac, hexp, rfl⟩ := parts_of_scanNumber h
  refine ⟨_, rfl, ?_⟩
  cases hreal : frac.isEmpty && exp.isEmpty with
  | false => exact .inr ⟨rfl, .parts hminus hint hfrac hexp hreal⟩
  | true =>
    rw [Bool.and_eq_true, List.isEmpty_iff, List.isEmpty_iff] at hreal
    obtain ⟨rfl, rfl⟩ := hreal
    obtain ⟨n, hn⟩ := JsonGrammar.integerText_of_parts hminus hint
    rw [List.append_nil, List.append_nil]
    exact .inl ⟨rfl, n, hn⟩

theorem partText_of_parseNumber {fp : DoubleText δ} {tmp rest : Bytes} {v : LeptValue δ}
    (h : (LeptContext.init tmp).parseNumber fp = .ok v (.init rest)) (hfits : IntegerFits tmp) :
    ∃ t, PartText fp (.value v) t ∧ tmp = t ++ rest := by
  obtain ⟨i, hscan⟩ := LeptContext.scanNumber_of_parseNumber h
  obtain ⟨t, rfl, ⟨rfl, n, hn⟩ | ⟨rfl, hreal⟩⟩ := text_of_scanNumber hscan
  · obtain ⟨hlow, hhigh⟩ := hfits t rest n rfl hscan hn
    rw [LeptContext.parseNumber_append fp hscan, if_pos rfl, stoll_of_integerText hn,
      if_pos ⟨by omega, by omega⟩] at h
    obtain rfl := (LeptOutcome.ok.inj h).1
    have hvalue := Int32.toInt_ofInt_of_le hlow hhigh
    rw [← hvalue] at hn
    exact ⟨t, .integer hn, rfl⟩
  · rw [LeptContext.parseNumber_append fp hscan, if_neg Bool.false_ne_true] at h
    cases hx : fp.read t with
    | none =>
      rw [hx] at h
      cases h
    | some x =>
      rw [hx] at h
      obtain rfl := (LeptOutcome.ok.inj h).1
      exact ⟨t, .number hreal hx, rfl⟩

theorem parseNumber_of_integerText (fp : DoubleText δ) {t r : Bytes} {i : Int32}
    (h : IntegerText t i.toInt) (hr : EndsNumber r) :
    (LeptContext.init (t ++ r)).parseNumber fp = .ok (.integer i) (.init r) := by
  have hlow := Int32.le_toInt i
  have hhigh := Int32.toInt_lt i
  rw [LeptContext.parseNumber_append fp (scanNumber_of_integerText h hr), if_pos rfl,
    stoll_of_integerText h, if_pos ⟨by omega, by omega⟩, Option.elim_some, Int32.ofInt_toInt]

theorem parseNumber_of_realText {fp : DoubleText δ} {t r : Bytes} {x : δ} (h : RealText t)
    (hx : fp.read t = some x) (hr : EndsNumber r) :
    (LeptContext.init (t ++ r)).parseNumber fp = .ok (.number x) (.init r) := by
  rw [LeptContext.parseNumber_append fp (scanNumber_of_realText h hr),
    if_neg Bool.false_ne_true, hx, Option.elim_some]

/-! ### Unaltered reading -/

theorem scanNumber_other {b : UInt8} (hdigit : LeptContext.isDigit b = false) (hminus : b ≠ 0x2D)
    (tmp : Bytes) : LeptContext.scanNumber (b :: tmp) = none := by
  have hzero : b ≠ 0x30 := by
    rintro rfl
    exact absurd hdigit (by decide)
  have hdigit1to9 : ¬ LeptContext.isDigit1to9 b = true := fun h =>
    Bool.eq_false_iff.mp hdigit ((isDigit1to9_iff b).mp h).1
  have hint : LeptContext.scanInt (b :: tmp) = none := by
    rw [LeptContext.scanInt, List.headD_cons, if_neg hzero, if_neg hdigit1to9]
  rw [LeptContext.scanNumber, List.headD_cons, if_neg hminus, hint]
  rfl

theorem integerFits_other {b : UInt8} (hdigit : LeptContext.isDigit b = false) (hminus : b ≠ 0x2D)
    (tmp : Bytes) : IntegerFits (b :: tmp) := by
  intro t rest n _ hscan
  rw [scanNumber_other hdigit hminus] at hscan
  cases hscan

theorem integerFits_text {t r : Bytes} {i : Bool}
    (hscan : LeptContext.scanNumber (t ++ r) = some (r, i))
    (hrange : i = true → ∀ n, IntegerText t n → -2 ^ 31 ≤ n ∧ n < 2 ^ 31) :
    IntegerFits (t ++ r) := by
  intro t' rest n htext hscan' hn
  obtain ⟨rfl, rfl⟩ := Prod.mk.inj (Option.some.inj (hscan.symm.trans hscan'))
  obtain rfl := List.append_cancel_right htext
  exact hrange rfl n hn

theorem readsString_unique {good' : Bytes → Prop} {tmp s s' rest rest' : Bytes}
    (h : ReadsString good tmp s rest) (h' : ReadsString good' tmp s' rest') :
    s = s' ∧ rest = rest' := by
  obtain ⟨hs, hrest⟩ := LeptOutcome.ok.inj
    ((LeptContext.parseString_of_reads h).symm.trans (LeptContext.parseString_of_reads h'))
  exact ⟨hs, congrArg LeptContext.rest hrest⟩

theorem colon_unique {good' : Bytes → Prop} {tmp tmp₁ tmp₁' tmp₂ tmp₂' k k' : Bytes}
    (hkey : ReadsString good tmp k tmp₁) (hcolon : skipSpace tmp₁ = 0x3A :: tmp₂)
    (hkey' : ReadsString good' tmp k' tmp₁') (hcolon' : skipSpace tmp₁' = 0x3A :: tmp₂') :
    k = k' ∧ tmp₂ = tmp₂' := by
  obtain ⟨rfl, rfl⟩ := readsString_unique hkey hkey'
  exact ⟨rfl, (List.cons.inj (hcolon.symm.trans hcolon')).2⟩

variable {fp : DoubleText δ}

/-- Only one list of entries is read. -/
theorem entries_unique {good' : Bytes → Prop} {tmp rest rest' : Bytes}
    {ms ms' : List (Bytes × LeptValue δ)} (h : JsonReads good fp tmp (.entries ms) rest)
    (h' : JsonReads good' fp tmp (.entries ms') rest') : ms = ms' ∧ rest = rest' := by
  generalize hp : JsonPart.entries ms = p at h
  induction h generalizing ms ms' with
  | @lastEntry tmp tmp₁ tmp₂ tmp₃ k rest v hkey hcolon h hclose ih =>
    obtain rfl := JsonPart.entries.inj hp
    obtain ⟨k', tmp₁', tmp₂', v', tmp₃', hkey', hcolon', hv', hcases⟩ := entries_inv h'
    obtain ⟨rfl, rfl⟩ := colon_unique hkey hcolon hkey' hcolon'
    obtain ⟨rfl, rfl⟩ := LeptContext.reads_unique h hv'
    rcases hcases with ⟨rfl, hclose'⟩ | ⟨tmp₄, ms, -, hcomma, -⟩
    · exact ⟨rfl, (List.cons.inj (hclose.symm.trans hclose')).2⟩
    · exact absurd (List.cons.inj (hclose.symm.trans hcomma)).1 (by decide)
  | @entry tmp tmp₁ tmp₂ tmp₃ tmp₄ k rest v ms hkey hcolon h hcomma hrest ih ihrest =>
    obtain rfl := JsonPart.entries.inj hp
    obtain ⟨k', tmp₁', tmp₂', v', tmp₃', hkey', hcolon', hv', hcases⟩ := entries_inv h'
    obtain ⟨rfl, rfl⟩ := colon_unique hkey hcolon hkey' hcolon'
    obtain ⟨rfl, rfl⟩ := LeptContext.reads_unique h hv'
    rcases hcases with ⟨-, hclose⟩ | ⟨tmp₄', ms', rfl, hcomma', hrest'⟩
    · exact absurd (List.cons.inj (hcomma.symm.trans hclose)).1 (by decide)
    · obtain rfl := (List.cons.inj (hcomma.symm.trans hcomma')).2
      obtain ⟨rfl, rfl⟩ := ihrest hrest' rfl
      exact ⟨rfl, rfl⟩
  | _ => cases hp

theorem namesDiffer_other {b : UInt8} (hb : b ≠ 0x7B) (tmp : Bytes) :
    NamesDiffer fp (b :: tmp) := fun _ _ _ h _ => absurd (List.cons.inj h).1 hb

/-- A value that is neither an array nor an object. -/
theorem unaltered_scalar {b : UInt8} (harray : b ≠ 0x5B) (hobject : b ≠ 0x7B) (tmp : Bytes) :
    Unaltered fp .value (b :: tmp) ↔ IntegerFits (b :: tmp) := by
  constructor
  · exact fun h => (h _ (.here _)).1
  · intro h x hx
    cases hx with
    | here => exact ⟨h, namesDiffer_other hobject tmp⟩
    | array h => exact absurd rfl harray
    | object h => exact absurd rfl hobject

/-- Nor a number. -/
theorem unaltered_other {b : UInt8} (hdigit : LeptContext.isDigit b = false)
    (hb : b ≠ 0x2D ∧ b ≠ 0x5B ∧ b ≠ 0x7B) (tmp : Bytes) : Unaltered fp .value (b :: tmp) :=
  (unaltered_scalar hb.2.1 hb.2.2 tmp).mpr (integerFits_other hdigit hb.1 tmp)

/-- A number. -/
theorem unaltered_number {tmp rest : Bytes} {v : LeptValue δ}
    (h : (LeptContext.init tmp).parseNumber fp = .ok v (.init rest)) :
    Unaltered fp .value tmp ↔ IntegerFits tmp := by
  have hch := LeptContext.number_ch h
  cases tmp with
  | nil => exact absurd hch (by decide)
  | cons b tmp =>
    have hb : LeptContext.isDigit b = true ∨ b = 0x2D := hch
    refine unaltered_scalar ?_ ?_ tmp
    · rintro rfl
      exact absurd hb (by decide)
    · rintro rfl
      exact absurd hb (by decide)

theorem unaltered_array (tmp : Bytes) :
    Unaltered fp .value (0x5B :: tmp) ↔ Unaltered fp .elements (skipSpace tmp) := by
  constructor
  · exact fun h x hx => h x (.array hx)
  · intro h x hx
    cases hx with
    | here =>
      exact ⟨integerFits_other (by decide) (by decide) tmp, namesDiffer_other (by decide) tmp⟩
    | array hx => exact h x hx

theorem unaltered_object {tmp rest : Bytes} {ms : List (Bytes × LeptValue δ)}
    (hms : JsonReads good fp (skipSpace tmp) (.entries ms) rest) :
    Unaltered fp .value (0x7B :: tmp) ↔
      (ms.map Prod.fst).Nodup ∧ Unaltered fp .entries (skipSpace tmp) := by
  constructor
  · intro h
    exact ⟨(h _ (.here _)).2 tmp ms rest rfl hms.any, fun x hx => h x (.object hx)⟩
  · rintro ⟨hnames, h⟩ x hx
    cases hx with
    | here =>
      refine ⟨integerFits_other (by decide) (by decide) tmp, ?_⟩
      intro tmp' ms' rest' htmp hms'
      obtain rfl := (List.cons.inj htmp).2
      obtain ⟨rfl, -⟩ := entries_unique hms hms'
      exact hnames
    | object hx => exact h x hx

theorem unaltered_emptyArray {tmp rest : Bytes} (hclose : skipSpace tmp = 0x5D :: rest) :
    Unaltered fp .value (0x5B :: tmp) := by
  rw [unaltered_array, hclose]
  intro x hx
  cases hx with
  | element hx => exact unaltered_other (by decide) (by decide) rest x hx
  | elements h hcomma hx => exact absurd rfl (LeptContext.startsValue_of_reads h).ch_ne

theorem unaltered_emptyObject {tmp rest : Bytes} (hclose : skipSpace tmp = 0x7D :: rest) :
    Unaltered fp .value (0x7B :: tmp) := by
  intro x hx
  cases hx with
  | here =>
    refine ⟨integerFits_other (by decide) (by decide) tmp, ?_⟩
    intro tmp' ms rest' htmp hms
    obtain rfl := (List.cons.inj htmp).2
    rw [hclose] at hms
    exact absurd (LeptContext.entries_ch hms) (by decide : (0x7D : UInt8) ≠ 0x22)
  | object hx =>
    rw [hclose] at hx
    cases hx

theorem unaltered_lastElement {tmp tmp₁ rest : Bytes} {v : LeptValue δ}
    (hv : JsonReads good fp tmp (.value v) tmp₁) (hclose : skipSpace tmp₁ = 0x5D :: rest) :
    Unaltered fp .elements tmp ↔ Unaltered fp .value tmp := by
  constructor
  · exact fun h x hx => h x (.element hx)
  · intro h x hx
    cases hx with
    | element hx => exact h x hx
    | elements hv' hcomma hx =>
      obtain ⟨-, rfl⟩ := LeptContext.reads_unique hv hv'
      exact absurd (List.cons.inj (hclose.symm.trans hcomma)).1 (by decide)

theorem unaltered_element {tmp tmp₁ tmp₂ : Bytes} {v : LeptValue δ}
    (hv : JsonReads good fp tmp (.value v) tmp₁) (hcomma : skipSpace tmp₁ = 0x2C :: tmp₂) :
    Unaltered fp .elements tmp ↔
      Unaltered fp .value tmp ∧ Unaltered fp .elements (skipSpace tmp₂) := by
  constructor
  · exact fun h => ⟨fun x hx => h x (.element hx), fun x hx => h x (.elements hv.any hcomma hx)⟩
  · rintro ⟨h, hrest⟩ x hx
    cases hx with
    | element hx => exact h x hx
    | elements hv' hcomma' hx =>
      obtain ⟨-, rfl⟩ := LeptContext.reads_unique hv hv'
      obtain rfl := (List.cons.inj (hcomma.symm.trans hcomma')).2
      exact hrest x hx

theorem unaltered_lastEntry {tmp tmp₁ tmp₂ tmp₃ k rest : Bytes} {v : LeptValue δ}
    (hkey : ReadsString good tmp k tmp₁) (hcolon : skipSpace tmp₁ = 0x3A :: tmp₂)
    (hv : JsonReads good fp (skipSpace tmp₂) (.value v) tmp₃)
    (hclose : skipSpace tmp₃ = 0x7D :: rest) :
    Unaltered fp .entries (0x22 :: tmp) ↔ Unaltered fp .value (skipSpace tmp₂) := by
  constructor
  · exact fun h x hx => h x (.entry hkey.any hcolon hx)
  · intro h x hx
    cases hx with
    | entry hkey' hcolon' hx =>
      obtain ⟨-, rfl⟩ := colon_unique hkey hcolon hkey' hcolon'
      exact h x hx
    | entries hkey' hcolon' hv' hcomma hx =>
      obtain ⟨-, rfl⟩ := colon_unique hkey hcolon hkey' hcolon'
      obtain ⟨-, rfl⟩ := LeptContext.reads_unique hv hv'
      exact absurd (List.cons.inj (hclose.symm.trans hcomma)).1 (by decide)

theorem unaltered_entry {tmp tmp₁ tmp₂ tmp₃ tmp₄ k : Bytes} {v : LeptValue δ}
    (hkey : ReadsString good tmp k tmp₁) (hcolon : skipSpace tmp₁ = 0x3A :: tmp₂)
    (hv : JsonReads good fp (skipSpace tmp₂) (.value v) tmp₃)
    (hcomma : skipSpace tmp₃ = 0x2C :: tmp₄) :
    Unaltered fp .entries (0x22 :: tmp) ↔
      Unaltered fp .value (skipSpace tmp₂) ∧ Unaltered fp .entries (skipSpace tmp₄) := by
  constructor
  · intro h
    exact ⟨fun x hx => h x (.entry hkey.any hcolon hx),
      fun x hx => h x (.entries hkey.any hcolon hv.any hcomma hx)⟩
  · rintro ⟨h, hrest⟩ x hx
    cases hx with
    | entry hkey' hcolon' hx =>
      obtain ⟨-, rfl⟩ := colon_unique hkey hcolon hkey' hcolon'
      exact h x hx
    | entries hkey' hcolon' hv' hcomma' hx =>
      obtain ⟨-, rfl⟩ := colon_unique hkey hcolon hkey' hcolon'
      obtain ⟨-, rfl⟩ := LeptContext.reads_unique hv hv'
      obtain rfl := (List.cons.inj (hcomma.symm.trans hcomma')).2
      exact hrest x hx

/-! ### What is read is what the text denotes -/

/-- The kind of a part. -/
def JsonPart.kind : JsonPart δ → PartKind
  | .value _ => .value
  | .elements _ => .elements
  | .entries _ => .entries

/-- A text of the part stands before what is left. -/
def JsonPart.StandsIn (fp : DoubleText δ) : JsonPart δ → Bytes → Bytes → Prop
  | .value v, tmp, rest => ∃ t, PartText fp (.value v) t ∧ tmp = t ++ rest
  | .elements vs, tmp, rest =>
    ∃ t w, PartText fp (.elements vs) t ∧ Space w ∧ tmp = t ++ (w ++ 0x5D :: rest)
  | .entries ms, tmp, rest =>
    ∃ t w, PartText fp (.entries ms) t ∧ Space w ∧ tmp = t ++ (w ++ 0x7D :: rest)

/-- **What is read unaltered, a character in each round, is what the text denotes.** -/
theorem partText_of_reads {tmp rest : Bytes} {p : JsonPart δ}
    (h : JsonReads CharRound fp tmp p rest) (hf : Unaltered fp p.kind tmp) :
    p.StandsIn fp tmp rest := by
  induction h with
  | true rest => exact ⟨_, .true, rfl⟩
  | false rest => exact ⟨_, .false, rfl⟩
  | null rest => exact ⟨_, .null, rfl⟩
  | number h => exact partText_of_parseNumber h (hf _ (.here _)).1
  | @string tmp s rest h =>
    obtain ⟨t, rfl, ht⟩ := text_of_readsString h
    exact ⟨quoted t, .string ht, by simp [quoted]⟩
  | @emptyArray tmp rest h =>
    obtain ⟨w, hw, rfl⟩ := space_of_skipSpace h
    exact ⟨0x5B :: (w ++ [0x5D]), .emptyArray hw, by simp⟩
  | @array tmp rest vs h ih =>
    obtain ⟨t, w', ht, hw', htmp⟩ := ih ((unaltered_array tmp).mp hf)
    obtain ⟨w, hw, rfl⟩ := space_of_skipSpace htmp
    exact ⟨_, .array hw ht hw', by simp⟩
  | @emptyObject tmp rest h =>
    obtain ⟨w, hw, rfl⟩ := space_of_skipSpace h
    exact ⟨0x7B :: (w ++ [0x7D]), .emptyObject hw, by simp⟩
  | @object tmp rest ms h ih =>
    obtain ⟨hnames, hf⟩ := (unaltered_object h).mp hf
    obtain ⟨t, w', ht, hw', htmp⟩ := ih hf
    obtain ⟨w, hw, rfl⟩ := space_of_skipSpace htmp
    -- with different names, no member is dropped
    obtain ⟨hordered, hperm⟩ := OrderedMap.foldl_insert_perm OrderedMap.ordered_nil hnames
      fun e he => absurd he List.not_mem_nil
    rw [List.append_nil] at hperm
    exact ⟨_, .object hw ht hw' hordered hperm.symm, by simp⟩
  | @lastElement tmp tmp₁ rest v h hclose ih =>
    obtain ⟨t, ht, rfl⟩ := ih ((unaltered_lastElement h hclose).mp hf)
    obtain ⟨w, hw, rfl⟩ := space_of_skipSpace hclose
    exact ⟨t, w, .lastElement ht, hw, rfl⟩
  | @element tmp tmp₁ tmp₂ rest v vs h hcomma hrest ih ihrest =>
    obtain ⟨hv, hvs⟩ := (unaltered_element h hcomma).mp hf
    obtain ⟨t, ht, rfl⟩ := ih hv
    obtain ⟨w, hw, rfl⟩ := space_of_skipSpace hcomma
    obtain ⟨ts, w₁, hts, hw₁, htmp₂⟩ := ihrest hvs
    obtain ⟨w', hw', rfl⟩ := space_of_skipSpace htmp₂
    exact ⟨_, w₁, .element ht hw hw' hts, hw₁, by simp⟩
  | @lastEntry tmp tmp₁ tmp₂ tmp₃ k rest v hkey hcolon h hclose ih =>
    obtain ⟨t, ht, htmp₂⟩ := ih ((unaltered_lastEntry hkey hcolon h hclose).mp hf)
    obtain ⟨kt, rfl, hk⟩ := text_of_readsString hkey
    obtain ⟨w, hw, rfl⟩ := space_of_skipSpace hcolon
    obtain ⟨w', hw', rfl⟩ := space_of_skipSpace htmp₂
    obtain ⟨w₁, hw₁, rfl⟩ := space_of_skipSpace hclose
    exact ⟨_, w₁, .lastMember hk hw hw' ht, hw₁, by simp [quoted]⟩
  | @entry tmp tmp₁ tmp₂ tmp₃ tmp₄ k rest v ms hkey hcolon h hcomma hrest ih ihrest =>
    obtain ⟨hv, hms⟩ := (unaltered_entry hkey hcolon h hcomma).mp hf
    obtain ⟨t, ht, htmp₂⟩ := ih hv
    obtain ⟨ts, w₃, hts, hw₃, htmp₄⟩ := ihrest hms
    obtain ⟨kt, rfl, hk⟩ := text_of_readsString hkey
    obtain ⟨w, hw, rfl⟩ := space_of_skipSpace hcolon
    obtain ⟨w', hw', rfl⟩ := space_of_skipSpace htmp₂
    obtain ⟨w₁, hw₁, rfl⟩ := space_of_skipSpace hcomma
    obtain ⟨w₂, hw₂, rfl⟩ := space_of_skipSpace htmp₄
    exact ⟨_, w₃, .member hk hw hw' ht hw₁ hw₂ hts, hw₃, by simp [quoted]⟩

/-! ### Such texts are read -/

/-- What behind a text of such a part ends it. -/
def JsonPart.EndedBy : JsonPart δ → Bytes → Bytes → Prop
  | .value _, tmp, rest => tmp = rest ∧ EndsNumber rest
  | .elements _, tmp, rest => ∃ w, Space w ∧ tmp = w ++ 0x5D :: rest
  | .entries _, tmp, rest => ∃ w, Space w ∧ tmp = w ++ 0x7D :: rest

/-- **A text is read as what it denotes**, unaltered, and a character in each round. -/
theorem reads_of_partText {p : JsonPart δ} {t : Bytes} (h : PartText fp p t) {tmp rest : Bytes}
    (hend : p.EndedBy tmp rest) :
    JsonReads CharRound fp (t ++ tmp) p rest ∧ Unaltered fp p.kind (t ++ tmp) := by
  induction h generalizing tmp rest with
  | true =>
    obtain ⟨rfl, -⟩ := hend
    exact ⟨.true _, unaltered_other (by decide) (by decide) _⟩
  | false =>
    obtain ⟨rfl, -⟩ := hend
    exact ⟨.false _, unaltered_other (by decide) (by decide) _⟩
  | null =>
    obtain ⟨rfl, -⟩ := hend
    exact ⟨.null _, unaltered_other (by decide) (by decide) _⟩
  | @integer t i h =>
    obtain ⟨rfl, hr⟩ := hend
    have hnumber := parseNumber_of_integerText fp h hr
    refine ⟨.number hnumber, (unaltered_number hnumber).mpr ?_⟩
    refine integerFits_text (scanNumber_of_integerText h hr) fun _ n hn => ?_
    obtain rfl : n = i.toInt := (integerText_eq hn).trans (integerText_eq h).symm
    exact ⟨Int32.le_toInt i, Int32.toInt_lt i⟩
  | number h hx =>
    obtain ⟨rfl, hr⟩ := hend
    have hnumber := parseNumber_of_realText h hx hr
    refine ⟨.number hnumber, (unaltered_number hnumber).mpr ?_⟩
    exact integerFits_text (scanNumber_of_realText h hr) fun hinteger => Bool.noConfusion hinteger
  | @string s t h =>
    obtain ⟨rfl, -⟩ := hend
    have htext : quoted t ++ tmp = 0x22 :: (t ++ 0x22 :: tmp) := by simp [quoted]
    rw [htext]
    exact ⟨.string (readsString_of_text h tmp), unaltered_other (by decide) (by decide) _⟩
  | @emptyArray w hw =>
    obtain ⟨rfl, -⟩ := hend
    have hskip := skipSpace_cons hw (b := 0x5D) (by decide) tmp
    rw [List.cons_append, List.append_assoc, List.singleton_append]
    exact ⟨.emptyArray hskip, unaltered_emptyArray hskip⟩
  | @array vs w t w' hw h hw' ih =>
    obtain ⟨rfl, -⟩ := hend
    have htext : 0x5B :: (w ++ (t ++ (w' ++ [0x5D]))) ++ tmp =
        0x5B :: (w ++ (t ++ (w' ++ 0x5D :: tmp))) := by simp
    obtain ⟨hvs, hf⟩ := ih ⟨w', hw', rfl⟩
    have hskip := skipSpace_reads hw hvs
    rw [htext]
    rw [← hskip] at hvs hf
    exact ⟨.array hvs, (unaltered_array _).mpr hf⟩
  | @emptyObject w hw =>
    obtain ⟨rfl, -⟩ := hend
    have hskip := skipSpace_cons hw (b := 0x7D) (by decide) tmp
    rw [List.cons_append, List.append_assoc, List.singleton_append]
    exact ⟨.emptyObject hskip, unaltered_emptyObject hskip⟩
  | @object ms obj w t w' hw h hw' hordered hperm ih =>
    obtain ⟨rfl, -⟩ := hend
    have htext : 0x7B :: (w ++ (t ++ (w' ++ [0x7D]))) ++ tmp =
        0x7B :: (w ++ (t ++ (w' ++ 0x7D :: tmp))) := by simp
    have hmap : objectOf ms = .object obj :=
      congrArg LeptValue.object (OrderedMap.foldl_insert_of_perm hordered hperm)
    have hnames : (ms.map Prod.fst).Nodup := ((hperm.map Prod.fst).nodup_iff).mpr hordered.nodup
    obtain ⟨hms, hf⟩ := ih ⟨w', hw', rfl⟩
    have hskip := skipSpace_reads hw hms
    rw [htext, ← hmap]
    rw [← hskip] at hms hf
    exact ⟨.object hms, (unaltered_object hms).mpr ⟨hnames, hf⟩⟩
  | @lastElement v t h ih =>
    obtain ⟨w, hw, rfl⟩ := hend
    have hends : EndsNumber (w ++ 0x5D :: rest) :=
      endsNumber_space hw (endsNumber_cons (by decide) []) rest
    have hclose := skipSpace_cons hw (b := 0x5D) (by decide) rest
    obtain ⟨hv, hf⟩ := ih ⟨rfl, hends⟩
    exact ⟨.lastElement hv hclose, (unaltered_lastElement hv hclose).mpr hf⟩
  | @element v vs t w w' ts h hw hw' hrest ih ihrest =>
    obtain ⟨hvs, hfs⟩ := ihrest hend
    have htext : t ++ (w ++ 0x2C :: (w' ++ ts)) ++ tmp =
        t ++ (w ++ 0x2C :: (w' ++ (ts ++ tmp))) := by simp
    have hends : EndsNumber (w ++ 0x2C :: (w' ++ (ts ++ tmp))) :=
      endsNumber_space hw (endsNumber_cons (by decide) []) _
    have hcomma := skipSpace_cons hw (b := 0x2C) (by decide) (w' ++ (ts ++ tmp))
    have hskip := skipSpace_reads hw' hvs
    obtain ⟨hv, hf⟩ := ih ⟨rfl, hends⟩
    rw [htext]
    rw [← hskip] at hvs hfs
    exact ⟨.element hv hcomma hvs, (unaltered_element hv hcomma).mpr ⟨hf, hfs⟩⟩
  | @lastMember k v kt w w' t hk hw hw' h ih =>
    obtain ⟨w₁, hw₁, rfl⟩ := hend
    have htext : quoted kt ++ (w ++ 0x3A :: (w' ++ t)) ++ (w₁ ++ 0x7D :: rest) =
        0x22 :: (kt ++ 0x22 :: (w ++ 0x3A :: (w' ++ (t ++ (w₁ ++ 0x7D :: rest))))) := by
      simp [quoted]
    have hends : EndsNumber (w₁ ++ 0x7D :: rest) :=
      endsNumber_space hw₁ (endsNumber_cons (by decide) []) rest
    have hclose := skipSpace_cons hw₁ (b := 0x7D) (by decide) rest
    have hkey := readsString_of_text hk (w ++ 0x3A :: (w' ++ (t ++ (w₁ ++ 0x7D :: rest))))
    have hcolon := skipSpace_cons hw (b := 0x3A) (by decide) (w' ++ (t ++ (w₁ ++ 0x7D :: rest)))
    obtain ⟨hv, hf⟩ := ih ⟨rfl, hends⟩
    have hskip := skipSpace_reads hw' hv
    rw [htext]
    rw [← hskip] at hv hf
    exact ⟨.lastEntry hkey hcolon hv hclose, (unaltered_lastEntry hkey hcolon hv hclose).mpr hf⟩
  | @member k v ms kt w w' t w₁ w₂ ts hk hw hw' h hw₁ hw₂ hrest ih ihrest =>
    obtain ⟨hms, hfs⟩ := ihrest hend
    have htext : quoted kt ++ (w ++ 0x3A :: (w' ++ (t ++ (w₁ ++ 0x2C :: (w₂ ++ ts))))) ++ tmp =
        0x22 :: (kt ++ 0x22 :: (w ++ 0x3A :: (w' ++ (t ++
          (w₁ ++ 0x2C :: (w₂ ++ (ts ++ tmp))))))) := by
      simp [quoted]
    have hends : EndsNumber (w₁ ++ 0x2C :: (w₂ ++ (ts ++ tmp))) :=
      endsNumber_space hw₁ (endsNumber_cons (by decide) []) _
    have hcomma := skipSpace_cons hw₁ (b := 0x2C) (by decide) (w₂ ++ (ts ++ tmp))
    have hkey := readsString_of_text hk
      (w ++ 0x3A :: (w' ++ (t ++ (w₁ ++ 0x2C :: (w₂ ++ (ts ++ tmp))))))
    have hcolon := skipSpace_cons hw (b := 0x3A) (by decide)
      (w' ++ (t ++ (w₁ ++ 0x2C :: (w₂ ++ (ts ++ tmp)))))
    obtain ⟨hv, hf⟩ := ih ⟨rfl, hends⟩
    have hskip := skipSpace_reads hw' hv
    have hskip' := skipSpace_reads hw₂ hms
    rw [htext]
    rw [← hskip] at hv hf
    rw [← hskip'] at hms hfs
    exact ⟨.entry hkey hcolon hv hcomma hms,
      (unaltered_entry hkey hcolon hv hcomma).mpr ⟨hf, hfs⟩⟩

theorem reads_of_denotes {json : Bytes} {v : LeptValue δ} (h : Denotes fp json v) :
    ∃ w, Space w ∧ JsonReads CharRound fp (parsedText json) (.value v) (w ++ [0]) ∧
      Unaltered fp .value (parsedText json) := by
  obtain ⟨w, t, w', hw, ht, hw', rfl⟩ := h
  obtain ⟨hread, hf⟩ := reads_of_partText ht ⟨rfl, endsNumber_end hw'⟩
  rw [parsedText_append hw (LeptContext.startsValue_of_reads hread)]
  exact ⟨w', hw', hread, hf⟩

/-- **A document denotes one value at most.** -/
theorem Denotes.unique {json : Bytes} {v v' : LeptValue δ} (h : Denotes fp json v)
    (h' : Denotes fp json v') : v = v' := by
  obtain ⟨w, -, hread, -⟩ := reads_of_denotes h
  obtain ⟨w', -, hread', -⟩ := reads_of_denotes h'
  exact (LeptContext.reads_unique hread hread').1

/-- What denotes a value is in the grammar. -/
theorem Denotes.document {json : Bytes} {v : LeptValue δ} (h : Denotes fp json v) :
    Document json := by
  obtain ⟨w, hw, hread, -⟩ := reads_of_denotes h
  exact (document_iff hread.any).mpr ⟨hread.imp fun _ hchar => hchar.1, w, hw, rfl⟩

/-- Where a payload begins with a value, it denotes the value if and only if nothing but white
    space is left and the reading altered nothing, a character in each round. -/
theorem denotes_iff {json rest : Bytes} {v : LeptValue δ}
    (h : JsonReads AnyRound fp (parsedText json) (.value v) rest) :
    Denotes fp json v ↔
      JsonReads CharRound fp (parsedText json) (.value v) rest ∧ (∃ w, Space w ∧ rest = w ++ [0]) ∧
        Unaltered fp .value (parsedText json) := by
  constructor
  · intro hdenotes
    obtain ⟨w, hw, hread, hf⟩ := reads_of_denotes hdenotes
    obtain ⟨-, rfl⟩ := LeptContext.reads_unique h hread
    exact ⟨hread, ⟨w, hw, rfl⟩, hf⟩
  · rintro ⟨hread, ⟨w', hw', rfl⟩, hf⟩
    obtain ⟨t, ht, htext⟩ := partText_of_reads hread hf
    obtain ⟨w, hw, rfl⟩ := eq_of_parsedText htext
    exact ⟨w, t, w', hw, ht, hw', rfl⟩

/-- **`getJsonMessage` returns a value, and one other than `null` only if the payload is a JSON
    text that denotes it, if and only if no string of the payload breaks off, and, where the
    payload begins with a value other than `null`, it is UTF-8, the `\u` escapes stand for
    characters, nothing but white space follows the value, its integers have 32 bits and its
    objects no name twice.** -/
theorem getJsonMessage_denotes_iff (fp : DoubleText δ) (frame : WsFrame) :
    (∃ v, getJsonMessage fp frame = .ok v ∧
        (v ≠ .null → IsJson frame.payload ∧ Denotes fp frame.payload v)) ↔
      ¬ JsonBreaks fp .value (parsedText frame.payload) ∧
        ∀ rest, Begins AnyRound fp (parsedText frame.payload) rest →
          ¬ str "null" <+: parsedText frame.payload →
            Utf8 frame.payload ∧ Begins CharRound fp (parsedText frame.payload) rest ∧
              (∃ w, Space w ∧ rest = w ++ [0]) ∧
                Unaltered fp .value (parsedText frame.payload) := by
  rw [getJsonMessage_ok_iff fp frame fun hne => absurd rfl hne]
  refine and_congr_right fun _ => ⟨?_, ?_⟩
  · rintro hdenotes rest ⟨v, hv⟩ hne
    obtain ⟨hjson, hpayload⟩ := hdenotes v rest hv fun hnull => hne ((eq_null_iff hv).mp hnull)
    obtain ⟨hread, hrest, hf⟩ := (denotes_iff hv).mp hpayload
    exact ⟨hjson.1, ⟨v, hread⟩, hrest, hf⟩
  · intro hwhole v rest hv hne
    obtain ⟨hutf8, ⟨w, hw⟩, hrest, hf⟩ :=
      hwhole rest ⟨v, hv⟩ fun hprefix => hne ((eq_null_iff hv).mpr hprefix)
    obtain ⟨rfl, -⟩ := LeptContext.reads_unique hw hv
    have hdenotes := (denotes_iff hv).mpr ⟨hw, hrest, hf⟩
    exact ⟨⟨hutf8, hdenotes.document⟩, hdenotes⟩

/-- `1 2` is taken for the integer 1. -/
theorem trailingText_accepted :
    ¬ ∃ v, getJsonMessage noDoubles { WsFrame.init with payload := str "1 2" } = .ok v ∧
      (v ≠ .null → IsJson (str "1 2") ∧ Denotes noDoubles (str "1 2") v) := by
  rintro ⟨v, hv, hdenotes⟩
  have hone : getJsonMessage noDoubles { WsFrame.init with payload := str "1 2" } =
      .ok (.integer 1) := rfl
  rw [hone] at hv
  obtain rfl := Except.ok.inj hv
  obtain ⟨⟨-, hdocument⟩, -⟩ := hdenotes (by simp)
  have hread : JsonReads AnyRound noDoubles (parsedText (str "1 2")) (.value (.integer 1))
      [0x20, 0x32, 0] := .number rfl
  obtain ⟨-, w, hw, hrest⟩ := (document_iff hread).mp hdocument
  -- what follows the 1 is a space and a 2
  have hspace : [0x20, 0x32] ++ [0] = w ++ [0] := hrest
  obtain rfl := List.append_cancel_right hspace
  exact absurd (hw 0x32 (by decide)) (by decide)

-- an integer of 64 bits is cut off
example : getJsonMessage noDoubles { WsFrame.init with payload := str "4294967297" } =
    .ok (.integer 1) := rfl

-- the second half of a surrogate pair is no character
example : getJsonMessage noDoubles { WsFrame.init with payload := str "\"\\uDC00\"" } =
    .ok (.string [0xED, 0xB0, 0x80]) := rfl

end MyWebSocket
