import MyWebSocket.Json.Grammar
import MyWebSocket.Library.JsonText

namespace MyWebSocket

/-!
# Reading texts of values

The parser reads every JSON text of a value without doubles as that value, whatever escapes, white
space and order of members the text has (`reads_of_text`).
-/

open JsonGrammar (chars_of_stringText)
open JsonText (Element Hex4 Member Space StringText Text commas quoted)

variable {δ : Type}

/-! ### Strings -/

/-- Bits above and bits below make a sum. -/
theorem or_eq_add {i k x : Nat} (hx : x < 2 ^ i) : 2 ^ i * k ||| x = x + 2 ^ i * k := by
  rw [← Nat.two_pow_add_eq_or_of_lt hx, Nat.add_comm]

theorem encodeUtf8_char (c : Char) : encodeUtf8 c.toNat = some (String.utf8EncodeChar c) := by
  have hcont : ∀ x : Nat, 0x80 ||| (x &&& 0x3F) = x % 0x40 + 0x80 := by
    intro x
    rw [Nat.and_two_pow_sub_one_eq_mod x 6]
    exact or_eq_add (i := 6) (k := 2) (Nat.mod_lt _ (by decide))
  have hlead : ∀ x : Nat, x < 0x100 → x &&& 0xFF = x := by
    intro x hx
    rw [Nat.and_two_pow_sub_one_eq_mod x 8]
    exact Nat.mod_eq_of_lt hx
  have hmax : c.toNat < 0x110000 := by
    rcases c.valid with hvalid | hvalid
    · exact hvalid.trans (by decide)
    · exact hvalid.2
  have hval : c.val.toNat = c.toNat := rfl
  unfold encodeUtf8 String.utf8EncodeChar
  simp only [hval]
  generalize c.toNat = u at hmax
  split
  · rfl
  split
  · next h =>
    have hsix : u >>> 6 = u / 64 := Nat.shiftRight_eq_div_pow u 6
    rw [hcont, hsix, hlead _ (by omega), Nat.mod_eq_of_lt (a := u / 64) (by omega),
      show (0xC0 : Nat) ||| u / 64 = u / 64 + 0xC0 from or_eq_add (i := 6) (k := 3) (by omega)]
  split
  · next h =>
    have hsix : u >>> 6 = u / 64 := Nat.shiftRight_eq_div_pow u 6
    have htwelve : u >>> 12 = u / 4096 := Nat.shiftRight_eq_div_pow u 12
    rw [hcont, hcont, hsix, htwelve, hlead _ (by omega),
      Nat.mod_eq_of_lt (a := u / 4096) (by omega),
      show (0xE0 : Nat) ||| u / 4096 = u / 4096 + 0xE0 from
        or_eq_add (i := 5) (k := 7) (by omega)]
  · have hsix : u >>> 6 = u / 64 := Nat.shiftRight_eq_div_pow u 6
    have htwelve : u >>> 12 = u / 4096 := Nat.shiftRight_eq_div_pow u 12
    have heighteen : u >>> 18 = u / 262144 := Nat.shiftRight_eq_div_pow u 18
    rw [if_pos (by omega), hcont, hcont, hcont, hsix, htwelve, heighteen, hlead _ (by omega),
      Nat.mod_eq_of_lt (a := u / 262144) (by omega),
      show (0xF0 : Nat) ||| u / 262144 = u / 262144 + 0xF0 from
        or_eq_add (i := 4) (k := 15) (by omega)]

theorem hexDigit_of_hexValue {b : UInt8} {n : Nat} (h : JsonText.hexValue b = some n) :
    hexDigit b = some n ∧ n < 2 ^ 4 := by
  unfold JsonText.hexValue at h
  simp only [hexDigit, UInt8.le_iff_toNat_le, UInt8.reduceToNat] at h ⊢
  split at h
  · next hdigit =>
    obtain rfl := Option.some.inj h
    exact ⟨if_pos hdigit, by omega⟩
  split at h
  · next hdigit hupper =>
    obtain rfl := Option.some.inj h
    rw [if_neg hdigit, if_pos (by omega), Option.some.injEq]
    omega
  split at h
  · next hdigit hupper hlower =>
    obtain rfl := Option.some.inj h
    rw [if_neg hdigit, if_neg (by omega), if_pos (by omega), Option.some.injEq]
    omega
  · exact absurd h (by simp)

/-- One more digit. -/
theorem shift_or {u d : Nat} (hd : d < 2 ^ 4) : (u <<< 4) ||| d = u * 16 + d := by
  rw [Nat.shiftLeft_eq, Nat.mul_comm, or_eq_add hd, Nat.add_comm, Nat.mul_comm]

theorem parseHex4_of_hex4 {ds : Bytes} {n : Nat} (h : Hex4 ds n) (r : Bytes) :
    parseHex4 (ds ++ r) = some (n, r) := by
  obtain ⟨ha, hb, hc, hd⟩ := h
  obtain ⟨ha, hi⟩ := hexDigit_of_hexValue ha
  obtain ⟨hb, hj⟩ := hexDigit_of_hexValue hb
  obtain ⟨hc, hk⟩ := hexDigit_of_hexValue hc
  obtain ⟨hd, hl⟩ := hexDigit_of_hexValue hd
  simp only [parseHex4, hex4Loop, List.cons_append, List.nil_append, List.headD_cons,
    List.tail_cons, ha, hb, hc, hd, shift_or hi, shift_or hj, shift_or hk, shift_or hl]
  simp

theorem pushUtf8_char (c : Char) (tmp : Bytes) :
    pushUtf8 c.toNat tmp = .push (String.utf8EncodeChar c) tmp := by
  rw [pushUtf8, encodeUtf8_char]

/-- No character is half of a surrogate pair. -/
theorem not_surrogate (c : Char) : ¬ (0xD800 ≤ c.toNat ∧ c.toNat ≤ 0xDFFF) := by
  have hvalid := c.valid
  have hval : c.val.toNat = c.toNat := rfl
  rcases hvalid with hlow | ⟨hhigh, -⟩
  · rw [hval] at hlow
    omega
  · rw [hval] at hhigh
    omega

theorem unicodeRound_char {c : Char} {ds : Bytes} (hds : Hex4 ds c.toNat) (r : Bytes) :
    unicodeRound (ds ++ r) = .push (String.utf8EncodeChar c) r := by
  rw [unicodeRound, parseHex4_of_hex4 hds]
  dsimp only
  rw [if_neg fun hhigh => not_surrogate c ⟨hhigh.1, by omega⟩, pushUtf8_char]

/-- The number of the character behind two halves of a surrogate pair. -/
theorem pair_value {high low : Nat} (hlow : low < 0x400) :
    (((0xD800 + high - 0xD800) <<< 10) ||| (0xDC00 + low - 0xDC00)) + 0x10000 =
      0x10000 + high * 0x400 + low := by
  rw [Nat.add_sub_cancel_left, Nat.add_sub_cancel_left, Nat.shiftLeft_eq, Nat.mul_comm,
    or_eq_add hlow]
  omega

theorem unicodeRound_pair {c : Char} {ds es : Bytes} {high low : Nat}
    (hds : Hex4 ds (0xD800 + high)) (hes : Hex4 es (0xDC00 + low)) (hhigh : high < 0x400)
    (hlow : low < 0x400) (hc : c.toNat = 0x10000 + high * 0x400 + low) (r : Bytes) :
    unicodeRound (ds ++ 0x5C :: 0x75 :: (es ++ r)) = .push (String.utf8EncodeChar c) r := by
  rw [unicodeRound, parseHex4_of_hex4 hds]
  dsimp only
  rw [if_pos ⟨by omega, by omega⟩, List.headD_cons, List.tail_cons, List.headD_cons,
    List.tail_cons, if_neg (not_not.mpr rfl), if_neg (not_not.mpr rfl), parseHex4_of_hex4 hes]
  dsimp only
  rw [if_neg (by omega), pair_value hlow, ← hc, pushUtf8_char]

theorem stringRound_short {e b : UInt8} (he : (e, b) ∈ JsonText.shortEscapes) (tmp : Bytes) :
    stringRound (0x5C :: e :: tmp) = .push [b] tmp := by
  rw [stringRound_backslash, escapeRound, List.headD_cons, (simpleEscape_of_mem he).1]
  rfl

theorem stringRound_unicode (tmp : Bytes) :
    stringRound (0x5C :: 0x75 :: tmp) = unicodeRound tmp := rfl

/-- An escape of the second half of a surrogate pair where a round begins: the first half, read in
    one round with it, is missing. -/
def LoneLow (tmp : Bytes) : Prop :=
  tmp.take 2 = [0x5C, 0x75] ∧
    ∃ u rest, parseHex4 (tmp.drop 2) = some (u, rest) ∧ 0xDC00 ≤ u ∧ u ≤ 0xDFFF

/-- A round that reads a character. -/
def CharRound (tmp : Bytes) : Prop := HexRound tmp ∧ ¬ LoneLow tmp

theorem not_loneLow_unit {ds : Bytes} {u : Nat} (hds : Hex4 ds u)
    (hu : ¬ (0xDC00 ≤ u ∧ u ≤ 0xDFFF)) (tmp : Bytes) :
    ¬ LoneLow (0x5C :: 0x75 :: (ds ++ tmp)) := by
  rintro ⟨-, u', rest, hhex, hlow⟩
  have hparse : parseHex4 (ds ++ tmp) = some (u', rest) := hhex
  rw [parseHex4_of_hex4 hds] at hparse
  obtain rfl : u = u' := congrArg Prod.fst (Option.some.inj hparse)
  exact hu hlow

theorem not_loneLow_of_text {s t : Bytes} (h : StringText s t) (r : Bytes) :
    ¬ LoneLow (t ++ 0x22 :: r) := by
  cases h with
  | nil => exact fun hlone => absurd (List.cons.inj hlone.1).1 (by decide)
  | raw hquote hslash hcontrol h => exact fun hlone => hslash (List.cons.inj hlone.1).1
  | short he h =>
    exact fun hlone => (simpleEscape_of_mem he).2 (List.cons.inj (List.cons.inj hlone.1).2).1
  | @unit ds s t c hds h =>
    rw [List.cons_append, List.cons_append, List.append_assoc]
    exact not_loneLow_unit hds (fun hlow => not_surrogate c ⟨by omega, hlow.2⟩) _
  | pair hds hes hhigh hlow hc h =>
    rw [List.cons_append, List.cons_append, List.append_assoc]
    exact not_loneLow_unit hds (by omega) _

theorem charRound_of_text {s t : Bytes} (h : StringText s t) (r : Bytes) :
    CharRound (t ++ 0x22 :: r) :=
  ⟨hexRound_of_chars (chars_of_stringText h) r, not_loneLow_of_text h r⟩

/-- **The text of a string is read**, a character in each round. -/
theorem readsString_of_text {s t : Bytes} (h : StringText s t) (r : Bytes) :
    ReadsString CharRound (t ++ 0x22 :: r) s r := by
  induction h with
  | nil => exact .close r
  | @raw b s t hquote hslash hcontrol h ih =>
    have hraw : IsRaw b := ⟨hquote, hslash, UInt8.not_lt.mpr hcontrol⟩
    exact .push (stringRound_raw hraw _) (charRound_of_text (.raw hquote hslash hcontrol h) r) ih
  | short he h ih =>
    exact .push (stringRound_short he _) (charRound_of_text (.short he h) r) ih
  | unit hds h ih =>
    have hround := unicodeRound_char hds
    have hchar := charRound_of_text (.unit hds h) r
    rw [List.cons_append, List.cons_append, List.append_assoc] at hchar ⊢
    exact .push ((stringRound_unicode _).trans (hround _)) hchar ih
  | pair hds hes hhigh hlow hc h ih =>
    have hround := unicodeRound_pair hds hes hhigh hlow hc
    have hchar := charRound_of_text (.pair hds hes hhigh hlow hc h) r
    rw [List.cons_append, List.cons_append, List.append_assoc, List.cons_append, List.cons_append,
      List.append_assoc] at hchar ⊢
    exact .push ((stringRound_unicode _).trans (hround _)) hchar ih

/-! ### Values -/

mutual

/-- The value with 64-bit integers. -/
def widen : LeptValue δ → JsonText.Value Int64 δ
  | .null => .null
  | .boolean b => .boolean b
  | .number n => .number n
  | .integer i => .integer i.toInt64
  | .string s => .string s
  | .array arr => .array (widenElements arr)
  | .object obj => .object (widenEntries obj)

def widenElements : List (LeptValue δ) → List (JsonText.Value Int64 δ)
  | [] => []
  | v :: arr => widen v :: widenElements arr

def widenEntries : List (Bytes × LeptValue δ) → List (Bytes × JsonText.Value Int64 δ)
  | [] => []
  | (k, v) :: obj => (k, widen v) :: widenEntries obj

end

/-- The entry with 64-bit integers. -/
def widenEntry (e : Bytes × LeptValue δ) : Bytes × JsonText.Value Int64 δ := (e.1, widen e.2)

@[simp] theorem widen_array (arr : List (LeptValue δ)) :
    widen (.array arr) = .array (arr.map widen) := by
  rw [widen]
  induction arr with
  | nil => rw [widenElements, List.map_nil]
  | cons v arr ih =>
    rw [widenElements, List.map_cons, JsonText.Value.array.injEq]
    exact congrArg _ (JsonText.Value.array.inj ih)

@[simp] theorem widen_object (obj : List (Bytes × LeptValue δ)) :
    widen (.object obj) = .object (obj.map widenEntry) := by
  rw [widen]
  induction obj with
  | nil => rw [widenEntries, List.map_nil]
  | cons e obj ih =>
    rw [widenEntries, List.map_cons, JsonText.Value.object.injEq]
    exact congrArg _ (JsonText.Value.object.inj ih)

/-- The parser reads every text of the value. -/
def ReadsTexts (real : δ → Bytes → Prop) (fp : DoubleText δ) (v : LeptValue δ) : Prop :=
  ∀ t r, Text Int64.toInt real (widen v) t → EndsNumber r →
    JsonReads AnyRound fp (t ++ r) (.value v) r

variable {real : δ → Bytes → Prop} {fp : DoubleText δ}

/-- White space is skipped up to a value. -/
theorem skipSpace_reads {good : Bytes → Prop} {w t r : Bytes} {p : JsonPart δ} (hw : Space w)
    (h : JsonReads good fp t p r) : skipSpace (w ++ t) = t := by
  obtain ⟨b, rest, rfl, hb, -⟩ := LeptContext.startsValue_of_reads h
  exact skipSpace_append hw hb

/-- An element with the white space around it. -/
theorem element_of_text {v : LeptValue δ} (hv : ReadsTexts real fp v)
    {x : Element (JsonText.Value Int64 δ)} (hvalue : x.value = widen v) (hspaced : x.Spaced)
    (htext : Text Int64.toInt real x.value x.text) {b : UInt8}
    (hb : EndsNumber [b]) (r : Bytes) :
    JsonReads AnyRound fp (skipSpace (x.render ++ b :: r)) (.value v) (x.after ++ b :: r) := by
  rw [hvalue] at htext
  have hread := hv x.text (x.after ++ b :: r) htext (endsNumber_space hspaced.2 hb r)
  have hskip := skipSpace_reads hspaced.1 hread
  have hrender : x.render ++ b :: r = x.before ++ (x.text ++ (x.after ++ b :: r)) := by
    simp [Element.render]
  rw [hrender, hskip]
  exact hread

theorem elements_of_text {arr : List (LeptValue δ)} (harr : ∀ v ∈ arr, ReadsTexts real fp v)
    {x : Element (JsonText.Value Int64 δ)} {xs : List (Element (JsonText.Value Int64 δ))}
    (hvalues : (x :: xs).map Element.value = arr.map widen)
    (hspaced : ∀ y ∈ x :: xs, y.Spaced)
    (htext : ∀ y ∈ x :: xs, Text Int64.toInt real y.value y.text) (r : Bytes) :
    JsonReads AnyRound fp (skipSpace (x.render ++ (commas (xs.map Element.render) ++ 0x5D :: r)))
      (.elements arr) r := by
  induction xs generalizing x arr with
  | nil =>
    rcases arr with _ | ⟨v, _ | ⟨v', arr⟩⟩
    · exact absurd hvalues (by simp)
    · have hvalue : x.value = widen v := (List.cons.inj hvalues).1
      have hx := element_of_text (harr v List.mem_cons_self) hvalue
        (hspaced x List.mem_cons_self) (htext x List.mem_cons_self)
        (endsNumber_cons (b := 0x5D) (by decide) []) r
      exact .lastElement hx (skipSpace_cons (hspaced x List.mem_cons_self).2 (by decide) r)
    · exact absurd hvalues (by simp)
  | cons x' xs ih =>
    rcases arr with _ | ⟨v, arr⟩
    · exact absurd hvalues (by simp)
    · obtain ⟨hvalue, hvalues⟩ := List.cons.inj hvalues
      obtain ⟨hv, harr⟩ := List.forall_mem_cons.mp harr
      obtain ⟨hspace, hspaced⟩ := List.forall_mem_cons.mp hspaced
      obtain ⟨ht, htext⟩ := List.forall_mem_cons.mp htext
      have hrest := ih harr hvalues hspaced htext
      have hcommas : commas ((x' :: xs).map Element.render) ++ 0x5D :: r =
          0x2C :: (x'.render ++ (commas (xs.map Element.render) ++ 0x5D :: r)) := by
        simp [commas]
      rw [hcommas]
      exact .element (element_of_text hv hvalue hspace ht
        (endsNumber_cons (b := 0x2C) (by decide) []) _)
        (skipSpace_cons hspace.2 (by decide) _) hrest

/-- A member up to what stands behind its value. -/
theorem member_of_text {e : Bytes × LeptValue δ} (he : ReadsTexts real fp e.2)
    {m : Member (JsonText.Value Int64 δ)} (hentry : m.entry = widenEntry e) (hspaced : m.Spaced)
    (hkey : StringText m.key m.keyText)
    (htext : Text Int64.toInt real m.element.value m.element.text) {b : UInt8}
    (hb : EndsNumber [b]) (r : Bytes) :
    ∃ tmp tmp₁ tmp₂, skipSpace (m.render ++ b :: r) = 0x22 :: tmp ∧
      ReadsString AnyRound tmp e.1 tmp₁ ∧ skipSpace tmp₁ = 0x3A :: tmp₂ ∧
        JsonReads AnyRound fp (skipSpace tmp₂) (.value e.2) (m.element.after ++ b :: r) := by
  obtain ⟨hk, hvalue⟩ := Prod.mk.inj hentry
  obtain ⟨hbefore, hbehind, helement⟩ := hspaced
  have hread := element_of_text he hvalue helement htext hb r
  have hrender : m.render ++ b :: r = m.before ++ 0x22 :: (m.keyText ++ 0x22 :: (m.behindKey ++
      0x3A :: (m.element.render ++ b :: r))) := by
    simp [Member.render, quoted]
  have hstring := readsString_of_text hkey (m.behindKey ++ 0x3A :: (m.element.render ++ b :: r))
  rw [hk] at hstring
  refine ⟨_, _, _, ?_, hstring.any, skipSpace_cons hbehind (by decide) _, hread⟩
  rw [hrender]
  exact skipSpace_cons hbefore (by decide) _

theorem entries_of_text {obj : List (Bytes × LeptValue δ)}
    (hobj : ∀ e ∈ obj, ReadsTexts real fp e.2)
    {m : Member (JsonText.Value Int64 δ)} {ms : List (Member (JsonText.Value Int64 δ))}
    (hentries : (m :: ms).map Member.entry = obj.map widenEntry)
    (hspaced : ∀ y ∈ m :: ms, y.Spaced) (hkey : ∀ y ∈ m :: ms, StringText y.key y.keyText)
    (htext : ∀ y ∈ m :: ms, Text Int64.toInt real y.element.value y.element.text) (r : Bytes) :
    JsonReads AnyRound fp (skipSpace (m.render ++ (commas (ms.map Member.render) ++ 0x7D :: r)))
      (.entries obj) r := by
  induction ms generalizing m obj with
  | nil =>
    rcases obj with _ | ⟨e, _ | ⟨e', obj⟩⟩
    · exact absurd hentries (by simp)
    · have hentry : m.entry = widenEntry e := (List.cons.inj hentries).1
      have hspace := hspaced m List.mem_cons_self
      obtain ⟨tmp, tmp₁, tmp₂, hskip, hstring, hcolon, hv⟩ := member_of_text
        (hobj e List.mem_cons_self) hentry hspace (hkey m List.mem_cons_self)
        (htext m List.mem_cons_self) (endsNumber_cons (b := 0x7D) (by decide) []) r
      show JsonReads AnyRound fp (skipSpace (m.render ++ 0x7D :: r)) _ r
      rw [hskip]
      exact .lastEntry hstring hcolon hv (skipSpace_cons hspace.2.2.2 (by decide) r)
    · exact absurd hentries (by simp)
  | cons m' ms ih =>
    rcases obj with _ | ⟨e, obj⟩
    · exact absurd hentries (by simp)
    · obtain ⟨hentry, hentries⟩ := List.cons.inj hentries
      obtain ⟨he, hobj⟩ := List.forall_mem_cons.mp hobj
      obtain ⟨hspace, hspaced⟩ := List.forall_mem_cons.mp hspaced
      obtain ⟨hk, hkey⟩ := List.forall_mem_cons.mp hkey
      obtain ⟨ht, htext⟩ := List.forall_mem_cons.mp htext
      have hrest := ih hobj hentries hspaced hkey htext
      have hcommas : commas ((m' :: ms).map Member.render) ++ 0x7D :: r =
          0x2C :: (m'.render ++ (commas (ms.map Member.render) ++ 0x7D :: r)) := by
        simp [commas]
      obtain ⟨tmp, tmp₁, tmp₂, hskip, hstring, hcolon, hv⟩ := member_of_text he hentry hspace hk ht
        (endsNumber_cons (b := 0x2C) (by decide) [])
        (m'.render ++ (commas (ms.map Member.render) ++ 0x7D :: r))
      rw [hcommas, hskip]
      exact .entry hstring hcolon hv (skipSpace_cons hspace.2.2.2 (by decide) _) hrest

/-- **Every text of a value without doubles is read as the value.** -/
theorem reads_of_text (real : δ → Bytes → Prop) (fp : DoubleText δ) {v : LeptValue δ}
    (hv : v.Plain) : ReadsTexts real fp v := by
  induction hv with
  | null =>
    intro t r ht hr
    cases ht with
    | null => exact .null r
  | boolean b =>
    intro t r ht hr
    cases ht with
    | true => exact .true r
    | false => exact .false r
  | integer i =>
    intro t r ht hr
    cases ht with
    | integer j =>
      have htext : JsonText.integerText i.toInt64.toInt = LeptValue.stringifyInteger i := by
        rw [Int32.toInt_toInt64]
        rfl
      rw [htext]
      exact .number (parseNumber_stringifyInteger fp i hr)
  | string s =>
    intro t r ht hr
    cases ht with
    | @string _ t h =>
      have htext : quoted t ++ r = 0x22 :: (t ++ 0x22 :: r) := by simp [quoted]
      rw [htext]
      exact .string (readsString_of_text h r).any
  | @array arr elems ih =>
    intro t r ht hr
    rw [widen_array] at ht
    generalize hvs : arr.map widen = vs at ht
    cases ht with
    | @emptyArray w hw =>
      obtain rfl := List.map_eq_nil_iff.mp hvs
      rw [List.cons_append, List.append_assoc, List.singleton_append]
      exact .emptyArray (skipSpace_cons hw (by decide) r)
    | @array x xs hspaced htext =>
      have helements := elements_of_text ih hvs.symm hspaced htext r
      have happend : 0x5B :: (x.render ++ (commas (xs.map Element.render) ++ [0x5D])) ++ r =
          0x5B :: (x.render ++ (commas (xs.map Element.render) ++ 0x5D :: r)) := by simp
      rw [happend]
      exact .array helements
  | @object obj ordered values ih =>
    intro t r ht hr
    rw [widen_object] at ht
    generalize hes : obj.map widenEntry = es at ht
    cases ht with
    | @emptyObject w hw =>
      obtain rfl := List.map_eq_nil_iff.mp hes
      rw [List.cons_append, List.append_assoc, List.singleton_append]
      exact .emptyObject (skipSpace_cons hw (by decide) r)
    | @object m ms es hspaced hkey htext hperm =>
      subst hes
      -- the entries in the order of the text
      have hcomp : Relation.Comp (· = List.map widenEntry ·) List.Perm
          ((m :: ms).map Member.entry) obj := by
        rw [List.eq_map_comp_perm]
        exact hperm
      obtain ⟨obj', hentries, hobj⟩ := hcomp
      have hread := entries_of_text (fun e he => ih e (hobj.mem_iff.mp he)) hentries hspaced hkey
        htext r
      have hmap : objectOf obj' = .object obj :=
        congrArg LeptValue.object (OrderedMap.foldl_insert_of_perm ordered hobj)
      have happend : 0x7B :: (m.render ++ (commas (ms.map Member.render) ++ [0x7D])) ++ r =
          0x7B :: (m.render ++ (commas (ms.map Member.render) ++ 0x7D :: r)) := by simp
      rw [happend, ← hmap]
      exact .object hread

/-- **And so it is parsed**, with white space around it. -/
theorem parse_of_text (fp : DoubleText δ) {v : LeptValue δ} (hv : v.Plain) {w t w' : Bytes}
    (hw : Space w) (ht : Text Int64.toInt real (widen v) t) (hw' : Space w') :
    LeptValue.parse fp (w ++ (t ++ w')) = .ok (v, none) := by
  have hread := reads_of_text real fp hv t (w' ++ [0]) ht (endsNumber_end hw')
  have htext := parsedText_append hw (LeptContext.startsValue_of_reads hread)
  exact parse_of_reads (htext ▸ hread)

end MyWebSocket
