import MyWebSocket.Json.Reading

namespace MyWebSocket

/-!
# Reading what `stringify` has written

Where the keys of all objects stand for themselves in a string, the text of a value is read
(`JsonReads`) as the value with its strings changed: `reread` is what comes back of a string
(`parse_stringify`).
-/

variable {δ : Type}

/-! ### Strings -/

/-- What is read for a `char` of a string value. -/
def rereadChar (ch : UInt8) : Bytes := if ch < 0x80 then [ch] else [0xEF, 0xBF, 0xBF]

/-- What is read for a string value. -/
def reread (s : Bytes) : Bytes := s.flatMap rereadChar

theorem hex4Loop_append {n u u' : Nat} {tmp rest : Bytes} (h : hex4Loop n u tmp = some (u', rest))
    (r : Bytes) : hex4Loop n u (tmp ++ r) = some (u', rest ++ r) := by
  induction n generalizing u tmp with
  | zero =>
    obtain ⟨rfl, rfl⟩ : u = u' ∧ tmp = rest := by simpa [hex4Loop] using h
    rfl
  | succ n ih =>
    cases tmp with
    | nil =>
      rw [hex4Loop, List.headD_nil, hexDigit_zero] at h
      exact absurd h (by simp)
    | cons b tmp =>
      rw [hex4Loop, List.headD_cons, List.tail_cons] at h
      rw [hex4Loop, List.cons_append, List.headD_cons, List.tail_cons]
      cases hd : hexDigit b with
      | none =>
        rw [hd] at h
        exact absurd h (by simp)
      | some d =>
        rw [hd] at h
        exact ih h

/-- A property of the bytes of a literal, as a computation. -/
theorem forall_mem_of_all {p : UInt8 → Prop} [DecidablePred p] {x : Bytes}
    (h : (x.all fun b => decide (p b)) = true) : ∀ b ∈ x, p b := by
  simpa using h

/-- A signed `char` is below 0x20 from 0x80 on too. -/
theorem toInt8_lt_iff (ch : UInt8) : ch.toInt8 < 0x20 ↔ ch < 0x20 ∨ ¬ ch < 0x80 := by
  have hvalue : ch.toInt8.toInt = ch.toBitVec.toInt := rfl
  have hnat : ch.toBitVec.toNat = ch.toNat := rfl
  have hlow : (0x20 : Int8).toInt = 32 := rfl
  have hlow' : (0x20 : UInt8).toNat = 32 := rfl
  have hhigh : (0x80 : UInt8).toNat = 128 := rfl
  have hlt := ch.toNat_lt
  rw [Int8.lt_iff_toInt_lt, UInt8.lt_iff_toNat_lt, UInt8.lt_iff_toNat_lt, hlow, hlow', hhigh,
    hvalue, BitVec.toInt_eq_toNat_cond, hnat]
  split <;> omega

/-- The number behind the `\u` of `unicodeEscape`: of the eight digits of a negative `char` the
    first four fit. -/
def escapedUnit (ch : UInt8) : Nat := if ch < 0x80 then ch.toNat else 0xFFFF

theorem unicodeEscape_eq : ∀ ch : UInt8, ch.toInt8 < 0x20 →
    ∃ ds, LeptValue.unicodeEscape ch = 0x5C :: 0x75 :: ds ∧
      parseHex4 ds = some (escapedUnit ch, []) := by
  have hcheck : ∀ ch : UInt8, ch.toInt8 < 0x20 →
      LeptValue.unicodeEscape ch = 0x5C :: 0x75 :: (LeptValue.unicodeEscape ch).drop 2 ∧
        parseHex4 ((LeptValue.unicodeEscape ch).drop 2) = some (escapedUnit ch, []) := by
    intro ch
    have hall : ∀ n : Fin 256, (UInt8.ofFin n).toInt8 < 0x20 →
        LeptValue.unicodeEscape (UInt8.ofFin n) =
            0x5C :: 0x75 :: (LeptValue.unicodeEscape (UInt8.ofFin n)).drop 2 ∧
          parseHex4 ((LeptValue.unicodeEscape (UInt8.ofFin n)).drop 2) =
            some (escapedUnit (UInt8.ofFin n), []) := by decide +kernel
    exact hall ch.toFin
  exact fun ch h => ⟨_, hcheck ch h⟩

theorem pushUtf8_escapedUnit (ch : UInt8) :
    ¬ (0xD800 ≤ escapedUnit ch ∧ escapedUnit ch ≤ 0xDBFF) ∧
      encodeUtf8 (escapedUnit ch) = some (rereadChar ch) := by
  by_cases hch : ch < 0x80
  · have hle : ch.toNat ≤ 0x7F := Nat.le_of_lt_succ (UInt8.lt_iff_toNat_lt.mp hch)
    rw [escapedUnit, rereadChar, if_pos hch, if_pos hch, encodeUtf8, if_pos hle, UInt8.ofNat_toNat]
    exact ⟨by omega, rfl⟩
  · rw [escapedUnit, rereadChar, if_neg hch, if_neg hch]
    exact ⟨by decide, rfl⟩

theorem stringRound_unicodeEscape {ch : UInt8} (h : ch.toInt8 < 0x20) (r : Bytes) :
    stringRound (LeptValue.unicodeEscape ch ++ r) = .push (rereadChar ch) r := by
  obtain ⟨ds, htext, hhex⟩ := unicodeEscape_eq ch h
  obtain ⟨hsurrogate, hutf⟩ := pushUtf8_escapedUnit ch
  have hhex' : parseHex4 (ds ++ r) = some (escapedUnit ch, r) := hex4Loop_append hhex r
  rw [htext]
  show unicodeRound (ds ++ r) = _
  rw [unicodeRound, hhex']
  show (if _ then _ else _) = _
  rw [if_neg hsurrogate, pushUtf8, hutf]

/-- **A written `char` is one round.** -/
theorem stringRound_escapeChar (ch : UInt8) (r : Bytes) :
    stringRound (LeptValue.escapeChar ch ++ r) = .push (rereadChar ch) r := by
  unfold LeptValue.escapeChar
  split
  · next h => subst h; rfl
  split
  · next h => subst h; rfl
  split
  · next h => subst h; rfl
  split
  · next h => subst h; rfl
  split
  · next h => subst h; rfl
  split
  · next h => subst h; rfl
  split
  · next h => subst h; rfl
  split
  · next h => subst h; rfl
  split
  · next h => exact stringRound_unicodeEscape h r
  · next hquote _ hslash _ _ _ _ _ h =>
    rw [toInt8_lt_iff, not_or, not_not] at h
    rw [rereadChar, if_pos h.2]
    exact stringRound_raw ⟨hquote, hslash, h.1⟩ r

/-- **A string that is written `char` by `char` is read**, `dec` being what a round makes of a
    `char` written by `enc`. -/
theorem readsString_encoded {enc dec : UInt8 → Bytes} {s : Bytes}
    (hround : ∀ ch ∈ s, ∀ r, stringRound (enc ch ++ r) = .push (dec ch) r) (rest : Bytes) :
    ReadsString AnyRound (s.flatMap enc ++ 0x22 :: rest) (s.flatMap dec) rest := by
  induction s with
  | nil => exact .close rest
  | cons ch s ih =>
    obtain ⟨hch, hs⟩ := List.forall_mem_cons.mp hround
    rw [List.flatMap_cons, List.append_assoc]
    exact .push (hch _) trivial (ih hs)

/-- A string value. -/
theorem readsString_stringify (s rest : Bytes) :
    ReadsString AnyRound (s.flatMap LeptValue.escapeChar ++ 0x22 :: rest) (reread s) rest :=
  readsString_encoded (fun ch _ r => stringRound_escapeChar ch r) rest

/-- A key that stands for itself. -/
theorem readsString_key {k : Bytes} (hk : ∀ ch ∈ k, IsRaw ch) (rest : Bytes) :
    ReadsString AnyRound (k ++ 0x22 :: rest) k rest := by
  have hself : k.flatMap (fun ch => [ch]) = k := List.flatMap_singleton' k
  have hround : ∀ ch ∈ k, ∀ r, stringRound ([ch] ++ r) = .push [ch] r :=
    fun ch hch r => stringRound_raw (hk ch hch) r
  have h := readsString_encoded hround rest
  rwa [hself] at h

/-! ### Numbers -/

/-- What follows does not go on with a number. -/
def EndsNumber (rest : Bytes) : Prop :=
  LeptContext.isDigit (rest.headD 0) = false ∧ rest.headD 0 ≠ 0x2E ∧ rest.headD 0 ≠ 0x65 ∧
    rest.headD 0 ≠ 0x45

theorem dropWhile_isDigit {ds rest : Bytes} (hds : ds.all LeptContext.isDigit = true)
    (hrest : LeptContext.isDigit (rest.headD 0) = false) :
    (ds ++ rest).dropWhile LeptContext.isDigit = rest := by
  rw [List.dropWhile_append_of_pos fun b hb => List.all_eq_true.mp hds b hb]
  cases rest with
  | nil => rfl
  | cons b rest =>
    have hb : LeptContext.isDigit b = false := hrest
    rw [List.dropWhile_cons, hb]
    rfl

theorem scanInt_decimal (n : Nat) {rest : Bytes} (hrest : EndsNumber rest) :
    LeptContext.scanInt (Http11.decimal n ++ rest) = some rest := by
  rcases Nat.eq_zero_or_pos n with rfl | hn
  · rfl
  · obtain ⟨d, ds, hd, hlow, hhigh⟩ := Http11.decimal_head hn
    have hall : (d :: ds).all LeptContext.isDigit = true := hd ▸ Http11.all_isDigit_decimal n
    have hds : ds.all LeptContext.isDigit = true := (Bool.and_eq_true _ _ ▸ hall).2
    have hzero : d ≠ 0x30 := by
      rintro rfl
      exact absurd hlow (by decide)
    have hdigit : LeptContext.isDigit1to9 d = true := by
      simp only [LeptContext.isDigit1to9, Bool.and_eq_true, decide_eq_true_eq,
        UInt8.le_iff_toNat_le]
      exact ⟨hlow, hhigh⟩
    rw [hd, LeptContext.scanInt, List.cons_append, List.headD_cons, List.tail_cons, if_neg hzero,
      if_pos hdigit, dropWhile_isDigit hds hrest.1]

theorem decimal_head_ne_minus (n : Nat) (rest : Bytes) :
    (Http11.decimal n ++ rest).headD 0 ≠ 0x2D := by
  have hall := Http11.all_isDigit_decimal n
  cases hd : Http11.decimal n with
  | nil => exact absurd hd (Http11.decimal_ne_nil n)
  | cons d ds =>
    rw [hd, List.all_cons, Bool.and_eq_true] at hall
    rintro rfl
    exact absurd hall.1 (by decide)

theorem scanNumber_stringifyInteger (i : Int32) {rest : Bytes} (hrest : EndsNumber rest) :
    LeptContext.scanNumber (LeptValue.stringifyInteger i ++ rest) = some (rest, true) := by
  have hsign : (if (LeptValue.stringifyInteger i ++ rest).headD 0 = 0x2D then
      (LeptValue.stringifyInteger i ++ rest).tail else LeptValue.stringifyInteger i ++ rest) =
        Http11.decimal i.toInt.natAbs ++ rest := by
    unfold LeptValue.stringifyInteger
    split
    · rfl
    · rw [if_neg (decimal_head_ne_minus _ rest)]
  have hfrac : LeptContext.scanFrac rest = some (rest, true) := by
    rw [LeptContext.scanFrac, if_neg hrest.2.1]
  have hexp : LeptContext.scanExp rest true = some (rest, true) := by
    rw [LeptContext.scanExp, if_neg (not_or.mpr ⟨hrest.2.2.1, hrest.2.2.2⟩)]
  rw [LeptContext.scanNumber, hsign, scanInt_decimal _ hrest, Option.bind_some, hfrac,
    Option.bind_some, hexp]

theorem stoll_stringifyInteger (i : Int32) :
    LeptContext.stoll (LeptValue.stringifyInteger i) = some i.toInt := by
  have hlow := Int32.le_toInt i
  have hhigh := Int32.toInt_lt i
  have hvalue : (if (LeptValue.stringifyInteger i).headD 0 = 0x2D then
      -(Http11.number (LeptValue.stringifyInteger i).tail : Int)
      else Http11.number (LeptValue.stringifyInteger i)) = i.toInt := by
    unfold LeptValue.stringifyInteger
    split
    · next hneg =>
      rw [List.headD_cons, if_pos rfl, List.tail_cons, Http11.number_decimal]
      omega
    · next hneg =>
      have hhead := decimal_head_ne_minus i.toInt.natAbs []
      rw [List.append_nil] at hhead
      rw [if_neg hhead, Http11.number_decimal]
      omega
  rw [LeptContext.stoll, hvalue]
  exact if_pos ⟨by omega, by omega⟩

/-- **An integer is read back**, there being room for it in a `long long` and an `int`. -/
theorem parseNumber_stringifyInteger (fp : DoubleText δ) (i : Int32) {rest : Bytes}
    (hrest : EndsNumber rest) :
    (LeptContext.init (LeptValue.stringifyInteger i ++ rest)).parseNumber fp =
      .ok (.integer i) (.init rest) := by
  rw [LeptContext.parseNumber_append fp (scanNumber_stringifyInteger i hrest), if_pos rfl,
    stoll_stringifyInteger, Option.elim_some, Int32.ofInt_toInt]

theorem endsNumber_cons {b : UInt8}
    (hb : LeptContext.isDigit b = false ∧ b ≠ 0x2E ∧ b ≠ 0x65 ∧ b ≠ 0x45) (rest : Bytes) :
    EndsNumber (b :: rest) := hb

/-! ### Arrays and objects -/

/-- No key needs an escape. -/
def LeptValue.Atom.HasRawKey : LeptValue.Atom δ → Prop
  | .key k => ∀ ch ∈ k, IsRaw ch
  | .leaf _ => True

/-- The parser reads the text that `stringify` has written, and nothing more. -/
def LeptValue.ReadsBack (fp : DoubleText δ) (v : LeptValue δ) : Prop :=
  ∀ rest, EndsNumber rest →
    JsonReads AnyRound fp (v.stringifyValue fp ++ rest) (.value (v.mapStrings reread)) rest

variable {fp : DoubleText δ}

/-- The elements from `v` on. -/
theorem elements_stringify {v : LeptValue δ} {arr : List (LeptValue δ)}
    (hread : ∀ e ∈ v :: arr, e.ReadsBack fp) (rest : Bytes) :
    JsonReads AnyRound fp
      (v.stringifyValue fp ++ (LeptValue.stringifyElements fp true arr ++ 0x5D :: rest))
      (.elements ((v :: arr).map (LeptValue.mapStrings reread))) rest := by
  induction arr generalizing v with
  | nil =>
    have hv := hread v List.mem_cons_self _ (endsNumber_cons (b := 0x5D) (by decide) rest)
    exact .lastElement hv (skipSpace_self rfl)
  | cons v' arr ih =>
    obtain ⟨hv, hread⟩ := List.forall_mem_cons.mp hread
    let more := v'.stringifyValue fp ++ (LeptValue.stringifyElements fp true arr ++ 0x5D :: rest)
    have htext : LeptValue.stringifyElements fp true (v' :: arr) ++ 0x5D :: rest =
        0x2C :: more := by
      simp [LeptValue.stringifyElements, more]
    have hrest := ih hread
    rw [← LeptContext.skipSpace_of_reads hrest] at hrest
    rw [htext]
    -- behind the comma is the next element
    exact .element (hv _ (endsNumber_cons (b := 0x2C) (by decide) more)) (skipSpace_self rfl) hrest

/-- The entries from `e` on. -/
theorem entries_stringify {e : Bytes × LeptValue δ} {obj : List (Bytes × LeptValue δ)}
    (hkeys : ∀ e' ∈ e :: obj, ∀ ch ∈ e'.1, IsRaw ch)
    (hread : ∀ e' ∈ e :: obj, e'.2.ReadsBack fp) (rest : Bytes) :
    JsonReads AnyRound fp (0x22 :: (e.1 ++ 0x22 :: 0x3A :: (e.2.stringifyValue fp ++
        (LeptValue.stringifyEntries fp true obj ++ 0x7D :: rest))))
      (.entries ((e :: obj).map fun e => (e.1, e.2.mapStrings reread))) rest := by
  induction obj generalizing e with
  | nil =>
    have hv := hread e List.mem_cons_self _ (endsNumber_cons (b := 0x7D) (by decide) rest)
    rw [← LeptContext.skipSpace_of_reads hv] at hv
    exact .lastEntry (readsString_key (hkeys e List.mem_cons_self) _) (skipSpace_self rfl) hv
      (skipSpace_self rfl)
  | cons e' obj ih =>
    obtain ⟨hkey, hkeys⟩ := List.forall_mem_cons.mp hkeys
    obtain ⟨he, hread⟩ := List.forall_mem_cons.mp hread
    let more := 0x22 :: (e'.1 ++ 0x22 :: 0x3A :: (e'.2.stringifyValue fp ++
      (LeptValue.stringifyEntries fp true obj ++ 0x7D :: rest)))
    have htext : LeptValue.stringifyEntries fp true (e' :: obj) ++ 0x7D :: rest = 0x2C :: more := by
      simp [LeptValue.stringifyEntries, more]
    have hv := he _ (endsNumber_cons (b := 0x2C) (by decide) more)
    rw [← LeptContext.skipSpace_of_reads hv] at hv
    have hrest := ih hkeys hread
    rw [← LeptContext.skipSpace_of_reads hrest] at hrest
    rw [htext]
    exact .entry (readsString_key hkey _) (skipSpace_self rfl) hv (skipSpace_self rfl) hrest

/-! ### Values -/

/-- **The text of a value is read as the value with its strings reread**, and no more is read,
    if every key of an object stands for itself. -/
theorem reads_stringify (fp : DoubleText δ) {v : LeptValue δ} (hv : v.Plain)
    (hkeys : ∀ a ∈ v.atoms, a.HasRawKey) : v.ReadsBack fp := by
  induction hv with
  | null => exact fun rest _ => .null rest
  | boolean b =>
    intro rest _
    cases b with
    | true => exact .true rest
    | false => exact .false rest
  | integer i => exact fun rest hrest => .number (parseNumber_stringifyInteger fp i hrest)
  | string s =>
    intro rest _
    have htext : LeptValue.stringifyString s ++ rest =
        0x22 :: (s.flatMap LeptValue.escapeChar ++ 0x22 :: rest) := by
      simp [LeptValue.stringifyString]
    rw [LeptValue.stringifyValue, htext]
    exact .string (readsString_stringify s rest)
  | @array arr elems ih =>
    intro rest _
    have hread : ∀ v ∈ arr, v.ReadsBack fp := by
      intro v hmem
      refine ih v hmem fun a ha => hkeys a ?_
      rw [LeptValue.atoms_array]
      exact List.mem_flatMap.mpr ⟨v, hmem, ha⟩
    have htext : LeptValue.stringifyValue fp (.array arr) ++ rest =
        0x5B :: (LeptValue.stringifyElements fp false arr ++ 0x5D :: rest) := by
      simp [LeptValue.stringifyValue]
    rw [htext, LeptValue.mapStrings_array]
    cases arr with
    | nil => exact .emptyArray (skipSpace_self rfl)
    | cons v arr =>
      have helements := elements_stringify hread rest
      rw [← LeptContext.skipSpace_of_reads helements] at helements
      have hfirst : LeptValue.stringifyElements fp false (v :: arr) ++ 0x5D :: rest =
          v.stringifyValue fp ++ (LeptValue.stringifyElements fp true arr ++ 0x5D :: rest) := by
        simp [LeptValue.stringifyElements]
      rw [hfirst]
      exact .array helements
  | @object obj ordered values ih =>
    intro rest _
    have hatoms : ∀ e ∈ obj, ∀ a, a = .key e.1 ∨ a ∈ e.2.atoms → a.HasRawKey := by
      intro e he a ha
      apply hkeys
      rw [LeptValue.atoms_object]
      exact List.mem_flatMap.mpr ⟨e, he, List.mem_cons.mpr ha⟩
    have hread : ∀ e ∈ obj, e.2.ReadsBack fp :=
      fun e he => ih e he fun a ha => hatoms e he a (Or.inr ha)
    have hraw : ∀ e ∈ obj, ∀ ch ∈ e.1, IsRaw ch := fun e he => hatoms e he (.key e.1) (Or.inl rfl)
    have htext : LeptValue.stringifyValue fp (.object obj) ++ rest =
        0x7B :: (LeptValue.stringifyEntries fp false obj ++ 0x7D :: rest) := by
      simp [LeptValue.stringifyValue]
    rw [htext, LeptValue.mapStrings_object]
    cases obj with
    | nil => exact .emptyObject (skipSpace_self rfl)
    | cons e obj =>
      have hentries := entries_stringify hraw hread rest
      rw [← LeptContext.skipSpace_of_reads hentries] at hentries
      have hfirst : LeptValue.stringifyEntries fp false (e :: obj) ++ 0x7D :: rest =
          0x22 :: (e.1 ++ 0x22 :: 0x3A :: (e.2.stringifyValue fp ++
            (LeptValue.stringifyEntries fp true obj ++ 0x7D :: rest))) := by
        simp [LeptValue.stringifyEntries]
      have hmap := OrderedMap.foldl_insert_of_perm (ordered.map (LeptValue.mapStrings reread))
        (List.Perm.refl _)
      rw [hfirst, ← hmap]
      exact .object hentries

/-- **`parse` of a text `stringify_value` has written.** -/
theorem parse_stringify (fp : DoubleText δ) {v : LeptValue δ} (hv : v.Plain)
    (hkeys : ∀ a ∈ v.atoms, a.HasRawKey) :
    LeptValue.parse fp (v.stringifyValue fp) = .ok (v.mapStrings reread, none) := by
  have hread := reads_stringify fp hv hkeys [0] (endsNumber_cons (by decide) [])
  rw [← LeptContext.skipSpace_of_reads hread] at hread
  exact parse_of_reads hread

end MyWebSocket
