import MyWebSocket.Json.Progress

namespace MyWebSocket

/-!
# What the parser reads

Relations between a text, what the parser makes of its beginning, and what is left behind that.

* `JsonReads` — the beginning is a value, the elements of an array or the entries of an object;
* `JsonBreaks` — a string in the beginning breaks off at a bad escape behind other characters.
  This is where `parse_string` leaves characters on its stack;
* `parseValue_explained`, `delivers_of_reads`, `fails_of_breaks` — `parse_value` does just that;
* `parse_eq_ok_iff`, `parse_eq_assertion_iff` — and so does `lept_value::parse`.

`good` is a condition on the rounds of `parse_string`, for texts whose strings meet it.
-/

variable {δ : Type} {good : Bytes → Prop}

/-- What `parse_whitespace` leaves. -/
def skipSpace (tmp : Bytes) : Bytes := tmp.dropWhile LeptContext.isWhitespace

theorem skipSpace_length_le (tmp : Bytes) : (skipSpace tmp).length ≤ tmp.length :=
  (List.dropWhile_sublist _).length_le

theorem parseWhitespace_init_eq (tmp : Bytes) :
    (LeptContext.init tmp).parseWhitespace = .init (skipSpace tmp) := rfl

theorem skipSpace_self {tmp : Bytes} (h : LeptContext.isWhitespace (tmp.headD 0) = false) :
    skipSpace tmp = tmp := by
  cases tmp with
  | nil => rfl
  | cons b tmp =>
    have hb : LeptContext.isWhitespace b = false := h
    rw [skipSpace, List.dropWhile_cons, hb]
    rfl

/-! ### Strings -/

/-- The characters `s`, up to the closing quotation mark. -/
inductive ReadsString (good : Bytes → Prop) : Bytes → Bytes → Bytes → Prop
  | close (rest : Bytes) : ReadsString good (0x22 :: rest) [] rest
  | push {tmp bs tmp' s rest : Bytes} (h : stringRound tmp = .push bs tmp') (hgood : good tmp)
      (hrest : ReadsString good tmp' s rest) : ReadsString good tmp (bs ++ s) rest

/-- Some characters, and then an escape that is none. -/
inductive BreaksString : Bytes → Prop
  | first {tmp bs tmp' : Bytes} {ret : LeptError} (h : stringRound tmp = .push bs tmp')
      (hfail : stringRound tmp' = .fail ret) : BreaksString tmp
  | later {tmp bs tmp' : Bytes} (h : stringRound tmp = .push bs tmp')
      (hrest : BreaksString tmp') : BreaksString tmp

theorem ReadsString.length_lt {tmp s rest : Bytes} (h : ReadsString good tmp s rest) :
    rest.length < tmp.length := by
  induction h with
  | close rest => exact Nat.lt_succ_self _
  | push h _ _ ih => exact ih.trans (stringRound_push_length h)

/-- A string that meets a condition meets a weaker one. -/
theorem ReadsString.imp {good' : Bytes → Prop} (hgood : ∀ tmp, good tmp → good' tmp)
    {tmp s rest : Bytes} (h : ReadsString good tmp s rest) : ReadsString good' tmp s rest := by
  induction h with
  | close rest => exact .close rest
  | push h hround _ ih => exact .push h (hgood _ hround) ih

/-! ### Where a value begins -/

/-- Where a value can begin. -/
def StartsValue (tmp : Bytes) : Prop :=
  ∃ b rest, tmp = b :: rest ∧ LeptContext.isWhitespace b = false ∧ b ≠ 0x5D

theorem StartsValue.append {tmp : Bytes} (h : StartsValue tmp) (rest : Bytes) :
    StartsValue (tmp ++ rest) := by
  obtain ⟨b, rest', rfl, hws, hclose⟩ := h
  exact ⟨b, rest' ++ rest, rfl, hws, hclose⟩

theorem startsValue_number {b : UInt8} (hb : LeptContext.isDigit b = true ∨ b = 0x2D)
    (tmp : Bytes) : StartsValue (b :: tmp) := by
  refine ⟨b, tmp, rfl, ?_, ?_⟩
  · rcases hb with hb | rfl
    · simp only [LeptContext.isWhitespace, Bool.or_eq_false_iff, beq_eq_false_iff_ne]
      exact ⟨⟨⟨ne_of_class hb (by decide), ne_of_class hb (by decide)⟩,
        ne_of_class hb (by decide)⟩, ne_of_class hb (by decide)⟩
    · decide
  · rcases hb with hb | rfl
    · exact ne_of_class hb (by decide)
    · decide

theorem StartsValue.ch_ne {tmp : Bytes} (h : StartsValue tmp) :
    (LeptContext.init tmp).ch ≠ 0x5D := by
  obtain ⟨b, rest, rfl, -, hclose⟩ := h
  exact hclose

theorem LeptContext.parseValue_number {c : LeptContext} (fp : DoubleText δ) (d : Nat)
    (h : LeptContext.isDigit c.ch = true ∨ c.ch = 0x2D) :
    c.parseValue fp (d + 1) = c.parseNumber fp := by
  have hne : ∀ x, LeptContext.isDigit x = false → x ≠ 0x2D → c.ch ≠ x := by
    intro x hx hminus
    rcases h with h | h
    · exact ne_of_class h hx
    · rw [h]
      exact hminus.symm
  rw [LeptContext.parseValue, if_neg (hne 0x74 (by decide) (by decide)),
    if_neg (hne 0x66 (by decide) (by decide)), if_neg (hne 0x6E (by decide) (by decide)),
    if_neg (hne 0 (by decide) (by decide)), if_neg (hne 0x22 (by decide) (by decide)),
    if_neg (hne 0x5B (by decide) (by decide)), if_neg (hne 0x7B (by decide) (by decide))]

/-! ### Values -/

/-- A value, the elements of an array or the entries of an object, in the order of the text. -/
inductive JsonPart (δ : Type)
  | value (v : LeptValue δ)
  | elements (vs : List (LeptValue δ))
  | entries (ms : List (Bytes × LeptValue δ))

/-- The `std::map` of an object; the first entry of a key counts. -/
def objectOf (ms : List (Bytes × LeptValue δ)) : LeptValue δ :=
  .object (ms.foldl (fun mp e => OrderedMap.insert e mp) [])

/-- The beginning of the text is such a part, and the last argument is left behind it.  Elements
    and entries end behind the closing bracket. -/
inductive JsonReads (good : Bytes → Prop) (fp : DoubleText δ) : Bytes → JsonPart δ → Bytes → Prop
  | true (rest : Bytes) : JsonReads good fp (str "true" ++ rest) (.value (.boolean Bool.true)) rest
  | false (rest : Bytes) :
      JsonReads good fp (str "false" ++ rest) (.value (.boolean Bool.false)) rest
  | null (rest : Bytes) : JsonReads good fp (str "null" ++ rest) (.value .null) rest
  | number {tmp rest : Bytes} {v : LeptValue δ}
      (h : (LeptContext.init tmp).parseNumber fp = .ok v (.init rest)) :
      JsonReads good fp tmp (.value v) rest
  | string {tmp s rest : Bytes} (h : ReadsString good tmp s rest) :
      JsonReads good fp (0x22 :: tmp) (.value (.string s)) rest
  | emptyArray {tmp rest : Bytes} (h : skipSpace tmp = 0x5D :: rest) :
      JsonReads good fp (0x5B :: tmp) (.value (.array [])) rest
  | array {tmp rest : Bytes} {vs : List (LeptValue δ)}
      (h : JsonReads good fp (skipSpace tmp) (.elements vs) rest) :
      JsonReads good fp (0x5B :: tmp) (.value (.array vs)) rest
  | emptyObject {tmp rest : Bytes} (h : skipSpace tmp = 0x7D :: rest) :
      JsonReads good fp (0x7B :: tmp) (.value (.object [])) rest
  | object {tmp rest : Bytes} {ms : List (Bytes × LeptValue δ)}
      (h : JsonReads good fp (skipSpace tmp) (.entries ms) rest) :
      JsonReads good fp (0x7B :: tmp) (.value (objectOf ms)) rest
  | lastElement {tmp tmp₁ rest : Bytes} {v : LeptValue δ}
      (h : JsonReads good fp tmp (.value v) tmp₁) (hclose : skipSpace tmp₁ = 0x5D :: rest) :
      JsonReads good fp tmp (.elements [v]) rest
  | element {tmp tmp₁ tmp₂ rest : Bytes} {v : LeptValue δ} {vs : List (LeptValue δ)}
      (h : JsonReads good fp tmp (.value v) tmp₁) (hcomma : skipSpace tmp₁ = 0x2C :: tmp₂)
      (hrest : JsonReads good fp (skipSpace tmp₂) (.elements vs) rest) :
      JsonReads good fp tmp (.elements (v :: vs)) rest
  | lastEntry {tmp tmp₁ tmp₂ tmp₃ k rest : Bytes} {v : LeptValue δ}
      (hkey : ReadsString good tmp k tmp₁) (hcolon : skipSpace tmp₁ = 0x3A :: tmp₂)
      (h : JsonReads good fp (skipSpace tmp₂) (.value v) tmp₃)
      (hclose : skipSpace tmp₃ = 0x7D :: rest) :
      JsonReads good fp (0x22 :: tmp) (.entries [(k, v)]) rest
  | entry {tmp tmp₁ tmp₂ tmp₃ tmp₄ k rest : Bytes} {v : LeptValue δ}
      {ms : List (Bytes × LeptValue δ)}
      (hkey : ReadsString good tmp k tmp₁) (hcolon : skipSpace tmp₁ = 0x3A :: tmp₂)
      (h : JsonReads good fp (skipSpace tmp₂) (.value v) tmp₃)
      (hcomma : skipSpace tmp₃ = 0x2C :: tmp₄)
      (hrest : JsonReads good fp (skipSpace tmp₄) (.entries ms) rest) :
      JsonReads good fp (0x22 :: tmp) (.entries ((k, v) :: ms)) rest

@[inherit_doc ReadsString.imp]
theorem JsonReads.imp {good' : Bytes → Prop} (hgood : ∀ tmp, good tmp → good' tmp)
    {fp : DoubleText δ} {tmp rest : Bytes} {p : JsonPart δ} (h : JsonReads good fp tmp p rest) :
    JsonReads good' fp tmp p rest := by
  induction h with
  | true rest => exact .true rest
  | false rest => exact .false rest
  | null rest => exact .null rest
  | number h => exact .number h
  | string h => exact .string (h.imp hgood)
  | emptyArray h => exact .emptyArray h
  | array _ ih => exact .array ih
  | emptyObject h => exact .emptyObject h
  | object _ ih => exact .object ih
  | lastElement _ hclose ih => exact .lastElement ih hclose
  | element _ hcomma _ ih ihrest => exact .element ih hcomma ihrest
  | lastEntry hkey hcolon _ hclose ih => exact .lastEntry (hkey.imp hgood) hcolon ih hclose
  | entry hkey hcolon _ hcomma _ ih ihrest =>
    exact .entry (hkey.imp hgood) hcolon ih hcomma ihrest

/-- No condition on the strings. -/
def AnyRound (_ : Bytes) : Prop := True

theorem ReadsString.any {tmp s rest : Bytes} (h : ReadsString good tmp s rest) :
    ReadsString AnyRound tmp s rest := h.imp fun _ _ => trivial

theorem JsonReads.any {fp : DoubleText δ} {tmp rest : Bytes} {p : JsonPart δ}
    (h : JsonReads good fp tmp p rest) : JsonReads AnyRound fp tmp p rest :=
  h.imp fun _ _ => trivial

/-- The kinds of parts. -/
inductive PartKind
  | value
  | elements
  | entries

/-- A string in the beginning of such a part breaks off at a bad escape. -/
inductive JsonBreaks (fp : DoubleText δ) : PartKind → Bytes → Prop
  | string {tmp : Bytes} (h : BreaksString tmp) : JsonBreaks fp .value (0x22 :: tmp)
  | array {tmp : Bytes} (h : JsonBreaks fp .elements (skipSpace tmp)) :
      JsonBreaks fp .value (0x5B :: tmp)
  | object {tmp : Bytes} (h : JsonBreaks fp .entries (skipSpace tmp)) :
      JsonBreaks fp .value (0x7B :: tmp)
  | element {tmp : Bytes} (h : JsonBreaks fp .value tmp) : JsonBreaks fp .elements tmp
  | elements {tmp tmp₁ tmp₂ : Bytes} {v : LeptValue δ}
      (h : JsonReads AnyRound fp tmp (.value v) tmp₁) (hcomma : skipSpace tmp₁ = 0x2C :: tmp₂)
      (hrest : JsonBreaks fp .elements (skipSpace tmp₂)) : JsonBreaks fp .elements tmp
  | key {tmp : Bytes} (h : BreaksString tmp) : JsonBreaks fp .entries (0x22 :: tmp)
  | entry {tmp tmp₁ tmp₂ k : Bytes} (hkey : ReadsString AnyRound tmp k tmp₁)
      (hcolon : skipSpace tmp₁ = 0x3A :: tmp₂) (h : JsonBreaks fp .value (skipSpace tmp₂)) :
      JsonBreaks fp .entries (0x22 :: tmp)
  | entries {tmp tmp₁ tmp₂ tmp₃ tmp₄ k : Bytes} {v : LeptValue δ}
      (hkey : ReadsString AnyRound tmp k tmp₁) (hcolon : skipSpace tmp₁ = 0x3A :: tmp₂)
      (h : JsonReads AnyRound fp (skipSpace tmp₂) (.value v) tmp₃)
      (hcomma : skipSpace tmp₃ = 0x2C :: tmp₄)
      (hrest : JsonBreaks fp .entries (skipSpace tmp₄)) : JsonBreaks fp .entries (0x22 :: tmp)

theorem skipSpace_cons_lt {tmp tmp' : Bytes} {b : UInt8} (h : skipSpace tmp = b :: tmp') :
    tmp'.length < tmp.length := by
  have hle := skipSpace_length_le tmp
  rw [h, List.length_cons] at hle
  omega

theorem JsonReads.length_lt {fp : DoubleText δ} {tmp rest : Bytes} {p : JsonPart δ}
    (h : JsonReads good fp tmp p rest) : rest.length < tmp.length := by
  have hlit : ∀ {x : Bytes}, 0 < x.length → ∀ rest : Bytes, rest.length < (x ++ rest).length := by
    intro x hx rest
    rw [List.length_append]
    omega
  induction h with
  | true rest => exact hlit (by decide) rest
  | false rest => exact hlit (by decide) rest
  | null rest => exact hlit (by decide) rest
  | number h => exact (LeptContext.parseNumber_eq_ok h).2.1
  | string h => exact h.length_lt.trans (Nat.lt_succ_self _)
  | emptyArray h => exact (skipSpace_cons_lt h).trans (Nat.lt_succ_self _)
  | @array tmp rest vs h ih =>
    have htmp := skipSpace_length_le tmp
    rw [List.length_cons]
    omega
  | emptyObject h => exact (skipSpace_cons_lt h).trans (Nat.lt_succ_self _)
  | @object tmp rest ms h ih =>
    have htmp := skipSpace_length_le tmp
    rw [List.length_cons]
    omega
  | lastElement h hclose ih => exact (skipSpace_cons_lt hclose).trans ih
  | @element tmp tmp₁ tmp₂ rest v vs h hcomma hrest ih ihrest =>
    have htmp := skipSpace_cons_lt hcomma
    have htmp₂ := skipSpace_length_le tmp₂
    omega
  | @lastEntry tmp tmp₁ tmp₂ tmp₃ k rest v hkey hcolon h hclose ih =>
    have hlen := hkey.length_lt
    have htmp₁ := skipSpace_cons_lt hcolon
    have htmp₂ := skipSpace_length_le tmp₂
    have htmp₃ := skipSpace_cons_lt hclose
    rw [List.length_cons]
    omega
  | @entry tmp tmp₁ tmp₂ tmp₃ tmp₄ k rest v ms hkey hcolon h hcomma hrest ih ihrest =>
    have hlen := hkey.length_lt
    have htmp₁ := skipSpace_cons_lt hcolon
    have htmp₂ := skipSpace_length_le tmp₂
    have htmp₃ := skipSpace_cons_lt hcomma
    have htmp₄ := skipSpace_length_le tmp₄
    rw [List.length_cons]
    omega

/-! ### What the parser reads is there -/

/-- A result is what `reads` says and leaves an empty stack; an error that leaves characters on the
    stack is a break. -/
def LeptOutcome.Explained {β : Type} (reads : β → Bytes → Prop) (breaks : Prop) :
    LeptOutcome β → Prop
  | .ok b c => ∃ rest, c = .init rest ∧ reads b rest
  | .error _ c => c.strTop ≠ 0 → breaks
  | .halt _ => False

theorem LeptOutcome.Explained.andThen {β γ : Type} {reads : β → Bytes → Prop}
    {reads' : γ → Bytes → Prop} {breaks breaks' : Prop} {r : LeptOutcome β}
    {f : β → LeptContext → LeptOutcome γ} (h : r.Explained reads breaks)
    (hbreaks : breaks → breaks')
    (hf : ∀ b rest, reads b rest → (f b (.init rest)).Explained reads' breaks') :
    (r.andThen f).Explained reads' breaks' := by
  cases r with
  | ok b c =>
    obtain ⟨rest, rfl, hb⟩ := h
    exact hf b rest hb
  | error ret c => exact fun htop => hbreaks (h htop)
  | halt e => exact h

theorem LeptOutcome.Explained.imp {β : Type} {reads reads' : β → Bytes → Prop}
    {breaks breaks' : Prop} {r : LeptOutcome β} (h : r.Explained reads breaks)
    (hreads : ∀ b rest, reads b rest → reads' b rest) (hbreaks : breaks → breaks') :
    r.Explained reads' breaks' := by
  cases r with
  | ok b c =>
    obtain ⟨rest, rfl, hb⟩ := h
    exact ⟨rest, rfl, hreads b rest hb⟩
  | error ret c => exact fun htop => hbreaks (h htop)
  | halt e => exact h

/-- An error with characters on the stack. -/
def LeptOutcome.LeavesChars {β : Type} (r : LeptOutcome β) : Prop :=
  ∃ ret c, r = .error ret c ∧ c.strTop ≠ 0

theorem LeptOutcome.LeavesChars.andThen {β γ : Type} {r : LeptOutcome β} (h : r.LeavesChars)
    (f : β → LeptContext → LeptOutcome γ) : (r.andThen f).LeavesChars := by
  obtain ⟨ret, c, rfl, htop⟩ := h
  exact ⟨ret, c, rfl, htop⟩

theorem hexDigit_lt {ch : UInt8} {d : Nat} (h : hexDigit ch = some d) : d < 2 ^ 6 := by
  have hle : ch.toNat < 2 ^ 8 := ch.toNat_lt
  simp only [hexDigit, UInt8.le_iff_toNat_le] at h
  split at h
  · next hdigit =>
    obtain ⟨-, hhigh⟩ := hdigit
    obtain rfl := Option.some.inj h
    simp only [UInt8.reduceToNat] at hhigh ⊢
    omega
  split at h
  · next hupper =>
    obtain ⟨-, hhigh⟩ := hupper
    obtain rfl := Option.some.inj h
    simp only [UInt8.reduceToNat] at hhigh ⊢
    omega
  split at h
  · next hlower =>
    obtain ⟨-, hhigh⟩ := hlower
    obtain rfl := Option.some.inj h
    simp only [UInt8.reduceToNat] at hhigh ⊢
    omega
  · exact absurd h (by simp)

/-- Each letter or digit adds four bits, and the last one at most two above them. -/
theorem hex4Loop_lt {n m u u' : Nat} {tmp rest : Bytes} (h : hex4Loop n u tmp = some (u', rest))
    (hu : u < 2 ^ (m + 2)) : u' < 2 ^ (m + 4 * n + 2) := by
  induction n generalizing m u tmp with
  | zero =>
    obtain ⟨rfl, -⟩ : u = u' ∧ tmp = rest := by simpa [hex4Loop] using h
    exact hu
  | succ n ih =>
    rw [hex4Loop] at h
    split at h
    · exact absurd h (by simp)
    · next d hd =>
      have hshift : u <<< 4 < 2 ^ (m + 4 + 2) := by
        rw [Nat.shiftLeft_eq, show m + 4 + 2 = m + 2 + 4 by omega, Nat.pow_add]
        exact Nat.mul_lt_mul_of_pos_right hu (by decide)
      have hdigit : d < 2 ^ (m + 4 + 2) :=
        (hexDigit_lt hd).trans_le (Nat.pow_le_pow_right (by decide) (by omega))
      have hnext := ih h (Nat.or_lt_two_pow hshift hdigit)
      rwa [show m + 4 * (n + 1) + 2 = m + 4 + 4 * n + 2 by omega]

theorem parseHex4_lt {tmp rest : Bytes} {u : Nat} (h : parseHex4 tmp = some (u, rest)) :
    u < 2 ^ 18 := hex4Loop_lt (m := 0) h (by decide)

theorem encodeUtf8_pos {u : Nat} {bs : Bytes} (h : encodeUtf8 u = some bs) : 0 < bs.length := by
  unfold encodeUtf8 at h
  split at h
  · exact Option.some.inj h ▸ Nat.one_pos
  split at h
  · exact Option.some.inj h ▸ Nat.two_pos
  split at h
  · exact Option.some.inj h ▸ Nat.succ_pos 2
  split at h
  · exact Option.some.inj h ▸ Nat.succ_pos 3
  · exact absurd h (by simp)

theorem pushUtf8_ne_abort {u : Nat} (hu : u ≤ 0x10FFFF) (tmp : Bytes) :
    pushUtf8 u tmp ≠ .abort := by
  unfold pushUtf8
  split
  · simp
  · next hnone =>
    unfold encodeUtf8 at hnone
    split at hnone
    · exact absurd hnone (by simp)
    split at hnone
    · exact absurd hnone (by simp)
    split at hnone
    · exact absurd hnone (by simp)
    · exact absurd hnone (by simp)

/-- **`encode_utf8` never fails**: four letters or digits and two halves of a surrogate pair both
    give a number that it can encode. -/
theorem unicodeRound_ne_abort (tmp : Bytes) : unicodeRound tmp ≠ .abort := by
  unfold unicodeRound
  split
  · simp
  · next u tmp₁ hu =>
    have hlt := parseHex4_lt hu
    split
    · next hhigh =>
      split
      · simp
      split
      · simp
      split
      · simp
      · next u2 tmp₂ hu2 =>
        split
        · simp
        · next hlow =>
          apply pushUtf8_ne_abort
          have hor : (u - 0xD800) <<< 10 ||| (u2 - 0xDC00) < 2 ^ 20 := by
            apply Nat.or_lt_two_pow
            · rw [Nat.shiftLeft_eq]
              omega
            · omega
          omega
    · exact pushUtf8_ne_abort (by omega) tmp₁

theorem stringRound_push_pos {tmp bs rest : Bytes} (h : stringRound tmp = .push bs rest) :
    0 < bs.length := by
  cases tmp with
  | nil =>
    rw [stringRound_nil] at h
    exact absurd h (by simp)
  | cons ch tmp =>
    rcases stringRound_cases ch tmp with ⟨-, hr⟩ | ⟨-, hr⟩ | ⟨-, ret, hr⟩ | ⟨-, hr⟩
    · rw [hr] at h
      exact absurd h (by simp)
    · rw [hr] at h
      rcases escapeRound_eq_push h with ⟨_, b, -, -, rfl⟩ | ⟨_, -, -, u, hu⟩
      · exact Nat.one_pos
      · exact encodeUtf8_pos hu
    · rw [hr] at h
      exact absurd h (by simp)
    · rw [hr] at h
      obtain ⟨rfl, -⟩ := StringRound.push.inj h
      exact Nat.one_pos

theorem stringRound_ne_abort (tmp : Bytes) : stringRound tmp ≠ .abort := by
  unfold stringRound
  dsimp only
  split
  · simp
  split
  · unfold escapeRound
    split
    · simp
    · split
      · exact unicodeRound_ne_abort _
      · simp
  split
  · simp
  split
  · simp
  · simp

namespace LeptContext

variable {fp : DoubleText δ}

theorem stringLoop_explained (head : Nat) {n : Nat} {tmp : Bytes} (hn : tmp.length < n)
    {c : LeptContext} (htop : head ≤ c.strTop) :
    match stringLoop head n tmp c with
    | .ok s c' => ∃ s' rest, s = c.stkStr ++ s' ∧ c' = ⟨rest, head, []⟩ ∧
        ReadsString AnyRound tmp s' rest
    | .error _ c' => c'.strTop = 0 ∨ BreaksString tmp ∨
        c'.strTop = c.strTop ∧ ∃ ret, stringRound tmp = .fail ret
    | .halt _ => False := by
  induction n generalizing tmp c with
  | zero => exact absurd hn (Nat.not_lt_zero _)
  | succ n ih =>
    rw [stringLoop]
    cases hr : stringRound tmp with
    | push bs tmp' =>
      have hlt := stringRound_push_length hr
      have hih := @ih tmp' (by omega) (c.pushChars bs) (htop.trans (Nat.le_add_right _ _))
      dsimp only
      cases hloop : stringLoop head n tmp' (c.pushChars bs) with
      | ok s c' =>
        rw [hloop] at hih
        obtain ⟨s', rest, rfl, rfl, hs⟩ := hih
        exact ⟨bs ++ s', rest, List.append_assoc .., rfl, .push hr trivial hs⟩
      | error ret c' =>
        rw [hloop] at hih
        rcases hih with hzero | hbreak | ⟨-, ret', hfail⟩
        · exact .inl hzero
        · exact .inr (.inl (.later hr hbreak))
        · exact .inr (.inl (.first hr hfail))
      | halt e =>
        rw [hloop] at hih
        exact hih
    | close rest =>
      dsimp only
      rw [if_pos htop]
      obtain rfl := stringRound_close hr
      exact ⟨[], rest, (List.append_nil _).symm, rfl, .close rest⟩
    | reset ret => exact .inl rfl
    | fail ret => exact .inr (.inr ⟨rfl, ret, rfl⟩)
    | abort => exact stringRound_ne_abort tmp hr

theorem parseString_explained (tmp : Bytes) :
    (init (0x22 :: tmp)).parseString.Explained (fun s rest => ReadsString AnyRound tmp s rest)
      (BreaksString tmp) := by
  have hloop := stringLoop_explained 0 (Nat.lt_succ_self tmp.length) (c := init (0x22 :: tmp))
    le_rfl
  show LeptOutcome.Explained _ _ (stringLoop 0 (tmp.length + 1) tmp (init (0x22 :: tmp)))
  cases hr : stringLoop 0 (tmp.length + 1) tmp (init (0x22 :: tmp)) with
  | ok s c =>
    rw [hr] at hloop
    obtain ⟨s', rest, rfl, rfl, hs⟩ := hloop
    exact ⟨rest, rfl, hs⟩
  | error ret c =>
    rw [hr] at hloop
    intro htop
    rcases hloop with hzero | hbreak | ⟨hzero, -⟩
    · exact absurd hzero htop
    · exact hbreak
    · exact absurd hzero htop
  | halt e =>
    rw [hr] at hloop
    exact hloop

/-- `parse_value` on a shorter text, with its outcome explained. -/
def ExplainsBelow (fp : DoubleText δ) (pv : LeptContext → LeptOutcome (LeptValue δ)) (n : Nat) :
    Prop :=
  ∀ tmp : Bytes, tmp.length < n →
    (pv (init tmp)).Explained (fun v rest => JsonReads AnyRound fp tmp (.value v) rest)
      (JsonBreaks fp .value tmp)

theorem ExplainsBelow.mono {pv : LeptContext → LeptOutcome (LeptValue δ)} {n m : Nat}
    (h : ExplainsBelow fp pv n) (hmn : m ≤ n) : ExplainsBelow fp pv m :=
  fun tmp hlt => h tmp (hlt.trans_le hmn)

/-- The character `ptr` is at, and the rest behind it. -/
theorem cons_of_ch {tmp : Bytes} {x : UInt8} (h : (init tmp).ch = x) (hx : x ≠ 0) :
    tmp = x :: tmp.tail := rest_eq h hx

theorem skipSpace_lt {tmp : Bytes} {x : UInt8} (h : (init (skipSpace tmp)).ch = x) (hx : x ≠ 0) :
    (skipSpace tmp).tail.length < tmp.length := by
  have hle := skipSpace_length_le tmp
  rw [cons_of_ch h hx, List.length_cons] at hle
  omega

theorem arrayLoop_explained {pv : LeptContext → LeptOutcome (LeptValue δ)} {n : Nat} {tmp : Bytes}
    (hpv : ExplainsBelow fp pv (tmp.length + 1)) (hn : tmp.length < n) (arr : List (LeptValue δ)) :
    (arrayLoop pv n arr (init tmp)).Explained
      (fun v rest => ∃ vs, v = .array (arr ++ vs) ∧ JsonReads AnyRound fp tmp (.elements vs) rest)
      (JsonBreaks fp .elements tmp) := by
  induction n generalizing tmp arr with
  | zero => exact absurd hn (Nat.not_lt_zero _)
  | succ n ih =>
    rw [arrayLoop]
    refine (hpv tmp (Nat.lt_succ_self _)).andThen .element fun v tmp₁ hv => ?_
    have hlt := hv.length_lt
    rw [parseWhitespace_init_eq]
    dsimp only
    split
    · next hcomma =>
      have hlt₁ := skipSpace_lt hcomma (by decide)
      have hle₂ := skipSpace_length_le (skipSpace tmp₁).tail
      have hcons := cons_of_ch hcomma (by decide)
      have hrest := @ih (skipSpace (skipSpace tmp₁).tail) (hpv.mono (by omega)) (by omega)
        (arr ++ [v])
      refine hrest.imp ?_ (.elements hv hcons)
      rintro w rest ⟨vs, rfl, hvs⟩
      exact ⟨v :: vs, by rw [List.append_assoc]; rfl, .element hv hcons hvs⟩
    · split
      · next hclose =>
        exact ⟨(skipSpace tmp₁).tail, rfl, [v], rfl,
          .lastElement hv (cons_of_ch hclose (by decide))⟩
      · exact fun htop => absurd rfl htop

theorem parseArray_explained {pv : LeptContext → LeptOutcome (LeptValue δ)} {tmp : Bytes}
    (hpv : ExplainsBelow fp pv (tmp.length + 1)) :
    ((init (0x5B :: tmp)).parseArray pv).Explained
      (fun v rest => JsonReads AnyRound fp (0x5B :: tmp) (.value v) rest)
      (JsonBreaks fp .value (0x5B :: tmp)) := by
  have hle := skipSpace_length_le tmp
  unfold parseArray
  rw [if_neg (by simp [ch, init])]
  show LeptOutcome.Explained _ _ (if (init (skipSpace tmp)).ch = 0x5D then _ else _)
  split
  · next hclose =>
    exact ⟨(skipSpace tmp).tail, rfl, .emptyArray (cons_of_ch hclose (by decide))⟩
  · refine (arrayLoop_explained (hpv.mono (Nat.succ_le_succ hle)) (Nat.lt_succ_self _) []).imp ?_
      .array
    rintro v rest ⟨vs, rfl, hvs⟩
    exact .array hvs

theorem objectLoop_explained {pv : LeptContext → LeptOutcome (LeptValue δ)} {n : Nat} {tmp : Bytes}
    (hpv : ExplainsBelow fp pv (tmp.length + 1)) (hn : tmp.length < n)
    (mp : List (Bytes × LeptValue δ)) :
    (objectLoop pv n mp (init tmp)).Explained
      (fun v rest => ∃ ms,
        v = .object (ms.foldl (fun mp e => OrderedMap.insert e mp) mp) ∧
          JsonReads AnyRound fp tmp (.entries ms) rest)
      (JsonBreaks fp .entries tmp) := by
  induction n generalizing tmp mp with
  | zero => exact absurd hn (Nat.not_lt_zero _)
  | succ n ih =>
    rw [objectLoop]
    split
    · exact fun htop => absurd rfl htop
    · next hquote =>
      obtain ⟨tmp, rfl⟩ : ∃ tmp', tmp = 0x22 :: tmp' :=
        ⟨_, cons_of_ch (of_not_not hquote) (by decide)⟩
      refine (parseString_explained tmp).andThen .key fun k tmp₁ hkey => ?_
      have hlt := hkey.length_lt
      rw [parseWhitespace_init_eq]
      dsimp only
      split
      · exact fun htop => absurd rfl htop
      · next hcolon =>
        have hcons := cons_of_ch (of_not_not hcolon) (by decide)
        have hlt₁ := skipSpace_lt (of_not_not hcolon) (by decide)
        have hle₂ := skipSpace_length_le (skipSpace tmp₁).tail
        rw [List.length_cons] at hpv hn
        have hvalue := hpv (skipSpace (skipSpace tmp₁).tail) (by omega)
        refine hvalue.andThen (.entry hkey hcons) fun v tmp₃ hv => ?_
        have hlt₃ := hv.length_lt
        rw [parseWhitespace_init_eq]
        split
        · next hclose =>
          exact ⟨(skipSpace tmp₃).tail, rfl, [(k, v)], rfl,
            .lastEntry hkey hcons hv (cons_of_ch hclose (by decide))⟩
        · split
          · next hcomma =>
            have hcons₄ := cons_of_ch hcomma (by decide)
            have hlt₄ := skipSpace_lt hcomma (by decide)
            have hle₅ := skipSpace_length_le (skipSpace tmp₃).tail
            have hrest := @ih (skipSpace (skipSpace tmp₃).tail) (hpv.mono (by omega)) (by omega)
              (OrderedMap.insert (k, v) mp)
            refine hrest.imp ?_ (.entries hkey hcons hv hcons₄)
            rintro w rest ⟨ms, rfl, hms⟩
            exact ⟨(k, v) :: ms, rfl, .entry hkey hcons hv hcons₄ hms⟩
          · exact fun htop => absurd rfl htop

theorem parseObject_explained {pv : LeptContext → LeptOutcome (LeptValue δ)} {tmp : Bytes}
    (hpv : ExplainsBelow fp pv (tmp.length + 1)) :
    ((init (0x7B :: tmp)).parseObject pv).Explained
      (fun v rest => JsonReads AnyRound fp (0x7B :: tmp) (.value v) rest)
      (JsonBreaks fp .value (0x7B :: tmp)) := by
  have hle := skipSpace_length_le tmp
  unfold parseObject
  rw [if_neg (by simp [ch, init])]
  show LeptOutcome.Explained _ _ (if (init (skipSpace tmp)).ch = 0x7D then _ else _)
  split
  · next hclose =>
    exact ⟨(skipSpace tmp).tail, rfl, .emptyObject (cons_of_ch hclose (by decide))⟩
  · refine (objectLoop_explained (hpv.mono (Nat.succ_le_succ hle)) (Nat.lt_succ_self _) []).imp ?_
      .object
    rintro v rest ⟨ms, rfl, hms⟩
    exact .object hms

theorem parseLiteral_explained {literal tmp : Bytes} {v : LeptValue δ}
    (hch : (init tmp).ch = literal.headD 0)
    (hreads : ∀ rest, JsonReads AnyRound fp (literal ++ rest) (.value v) rest) :
    ((init tmp).parseLiteral literal v).Explained
      (fun v rest => JsonReads AnyRound fp tmp (.value v) rest) (JsonBreaks fp .value tmp) := by
  unfold parseLiteral
  rw [if_neg (not_not.mpr hch)]
  split
  · next hlit =>
    obtain ⟨rest, rfl⟩ := List.isPrefixOf_iff_prefix.mp hlit
    refine ⟨rest, ?_, hreads rest⟩
    show init ((literal ++ rest).drop literal.length) = init rest
    rw [List.drop_left]
  · exact fun htop => absurd rfl htop

theorem parseNumber_explained (tmp : Bytes) :
    ((init tmp).parseNumber fp).Explained (fun v rest => JsonReads AnyRound fp tmp (.value v) rest)
      (JsonBreaks fp .value tmp) := by
  have hnumber : ∀ r : LeptOutcome (LeptValue δ), (init tmp).parseNumber fp = r →
      r.Explained (fun v rest => JsonReads AnyRound fp tmp (.value v) rest)
        (JsonBreaks fp .value tmp) := by
    intro r hr
    have hread := hr
    unfold parseNumber at hr
    split at hr
    · subst hr
      exact fun htop => absurd rfl htop
    · next rest isInteger hscan =>
      dsimp only at hr
      split at hr
      · split at hr
        · subst hr
          exact fun htop => absurd rfl htop
        · subst hr
          exact ⟨rest, rfl, .number hread⟩
      · split at hr
        · subst hr
          exact fun htop => absurd rfl htop
        · subst hr
          exact ⟨rest, rfl, .number hread⟩
  exact hnumber _ rfl

/-- **What `parse_value` reads is there**, and where it leaves characters on the stack a string
    breaks off. -/
theorem parseValue_explained (fp : DoubleText δ) (d : Nat) :
    ExplainsBelow fp (LeptContext.parseValue fp d) d := by
  induction d with
  | zero => exact fun tmp hlt => absurd hlt (Nat.not_lt_zero _)
  | succ d ih =>
    intro tmp hlt
    rw [parseValue]
    split
    · next hch => exact parseLiteral_explained hch .true
    split
    · next hch => exact parseLiteral_explained hch .false
    split
    · next hch => exact parseLiteral_explained hch .null
    split
    · exact fun htop => absurd rfl htop
    split
    · next hch =>
      obtain ⟨tmp, rfl⟩ : ∃ tmp', tmp = 0x22 :: tmp' := ⟨_, cons_of_ch hch (by decide)⟩
      exact (parseString_explained tmp).andThen .string fun s rest hs => ⟨rest, rfl, .string hs⟩
    split
    · next hch =>
      obtain ⟨tmp, rfl⟩ : ∃ tmp', tmp = 0x5B :: tmp' := ⟨_, cons_of_ch hch (by decide)⟩
      exact parseArray_explained (ih.mono (Nat.le_of_lt_succ hlt))
    split
    · next hch =>
      obtain ⟨tmp, rfl⟩ : ∃ tmp', tmp = 0x7B :: tmp' := ⟨_, cons_of_ch hch (by decide)⟩
      exact parseObject_explained (ih.mono (Nat.le_of_lt_succ hlt))
    · exact parseNumber_explained tmp

/-! ### The parser reads what is there -/

theorem stringLoop_of_reads {tmp s rest : Bytes} (h : ReadsString good tmp s rest) {head n : Nat}
    (hn : tmp.length < n) {c : LeptContext} (htop : head ≤ c.strTop) :
    stringLoop head n tmp c = .ok (c.stkStr ++ s) ⟨rest, head, []⟩ := by
  induction h generalizing n c with
  | close rest =>
    cases n with
    | zero => exact absurd hn (Nat.not_lt_zero _)
    | succ n =>
      rw [stringLoop, stringRound_quote]
      dsimp only
      rw [if_pos htop, List.append_nil]
  | @push tmp bs tmp' s rest h _ _ ih =>
    cases n with
    | zero => exact absurd hn (Nat.not_lt_zero _)
    | succ n =>
      have hlt := stringRound_push_length h
      rw [stringLoop, h]
      dsimp only
      rw [ih (by omega) (htop.trans (Nat.le_add_right _ _))]
      show LeptOutcome.ok (c.stkStr ++ bs ++ s) _ = _
      rw [List.append_assoc]

theorem parseString_of_reads {tmp s rest : Bytes} (h : ReadsString good tmp s rest) :
    (init (0x22 :: tmp)).parseString = .ok s (init rest) :=
  stringLoop_of_reads h (Nat.lt_succ_self _) le_rfl

theorem stringLoop_of_breaks {tmp : Bytes} (h : BreaksString tmp) {head n : Nat}
    (hn : tmp.length < n) (c : LeptContext) :
    (stringLoop head n tmp c).LeavesChars := by
  induction h generalizing n c with
  | @first tmp bs tmp' ret h hfail =>
    have hlt := stringRound_push_length h
    have hbs := stringRound_push_pos h
    rcases n with _ | _ | n
    · exact absurd hn (Nat.not_lt_zero _)
    · omega
    · refine ⟨ret, c.pushChars bs, ?_, ?_⟩
      · rw [stringLoop, h]
        dsimp only
        rw [stringLoop, hfail]
      · show c.strTop + bs.length ≠ 0
        omega
  | @later tmp bs tmp' h _ ih =>
    cases n with
    | zero => exact absurd hn (Nat.not_lt_zero _)
    | succ n =>
      have hlt := stringRound_push_length h
      rw [stringLoop, h]
      exact ih (by omega) _

theorem parseString_of_breaks {tmp : Bytes} (h : BreaksString tmp) :
    (init (0x22 :: tmp)).parseString.LeavesChars :=
  stringLoop_of_breaks h (Nat.lt_succ_self _) _

/-- What `parse_value` and the loops of `parse_array` and `parse_object` do with a text that begins
    with such a part, with fuel for `d` characters. -/
def Delivers (fp : DoubleText δ) (d : Nat) (tmp : Bytes) (rest : Bytes) : JsonPart δ → Prop
  | .value v => parseValue fp d (init tmp) = .ok v (init rest)
  | .elements vs => ∀ n arr, tmp.length < n →
      arrayLoop (parseValue fp d) n arr (init tmp) = .ok (.array (arr ++ vs)) (init rest)
  | .entries ms => ∀ n mp, tmp.length < n →
      objectLoop (parseValue fp d) n mp (init tmp) =
        .ok (.object (ms.foldl (fun mp e => OrderedMap.insert e mp) mp)) (init rest)

theorem scanNumber_of_parseNumber {fp : DoubleText δ} {tmp rest : Bytes} {v : LeptValue δ}
    (h : (init tmp).parseNumber fp = .ok v (init rest)) : ∃ i, scanNumber tmp = some (rest, i) := by
  unfold parseNumber at h
  split at h
  · exact absurd h (by simp)
  · next rest' isInteger hscan =>
    dsimp only at h
    have hrest : rest' = rest := by
      split at h
      · split at h
        · exact absurd h (by simp)
        · exact congrArg LeptContext.rest (LeptOutcome.ok.inj h).2
      · split at h
        · exact absurd h (by simp)
        · exact congrArg LeptContext.rest (LeptOutcome.ok.inj h).2
    exact ⟨isInteger, hrest ▸ hscan⟩

/-- A number begins with a digit or a minus sign. -/
theorem number_ch {fp : DoubleText δ} {tmp rest : Bytes} {v : LeptValue δ}
    (h : (init tmp).parseNumber fp = .ok v (init rest)) :
    isDigit (init tmp).ch = true ∨ (init tmp).ch = 0x2D := by
  obtain ⟨i, hscan⟩ := scanNumber_of_parseNumber h
  by_cases hminus : tmp.headD 0 = 0x2D
  · exact .inr hminus
  · rw [scanNumber, if_neg hminus] at hscan
    obtain ⟨tmp₁, hint, -⟩ := Option.bind_eq_some_iff.mp hscan
    left
    show isDigit (tmp.headD 0) = true
    unfold scanInt at hint
    split at hint
    · next hzero =>
      rw [hzero]
      decide
    · split at hint
      · next hdigit => exact isDigit_of_isDigit1to9 hdigit
      · exact absurd hint (by simp)

theorem startsValue_of_reads {fp : DoubleText δ} {tmp rest : Bytes} {p : JsonPart δ}
    (h : JsonReads good fp tmp p rest) : StartsValue tmp := by
  induction h with
  | true rest => exact ⟨0x74, _, rfl, by decide⟩
  | false rest => exact ⟨0x66, _, rfl, by decide⟩
  | null rest => exact ⟨0x6E, _, rfl, by decide⟩
  | @number tmp rest v h =>
    have hch := number_ch h
    have hne : (init tmp).ch ≠ 0 := by
      rcases hch with hch | hch
      · exact ne_of_class hch (by decide)
      · rw [hch]
        decide
    rw [cons_of_ch rfl hne]
    exact startsValue_number hch _
  | string h => exact ⟨0x22, _, rfl, by decide⟩
  | emptyArray h => exact ⟨0x5B, _, rfl, by decide⟩
  | array h ih => exact ⟨0x5B, _, rfl, by decide⟩
  | emptyObject h => exact ⟨0x7B, _, rfl, by decide⟩
  | object h ih => exact ⟨0x7B, _, rfl, by decide⟩
  | lastElement h hclose ih => exact ih
  | element h hcomma hrest ih ihrest => exact ih
  | lastEntry hkey hcolon h hclose ih => exact ⟨0x22, _, rfl, by decide⟩
  | entry hkey hcolon h hcomma hrest ih ihrest => exact ⟨0x22, _, rfl, by decide⟩

theorem skipSpace_of_reads {fp : DoubleText δ} {tmp rest : Bytes} {p : JsonPart δ}
    (h : JsonReads good fp tmp p rest) : skipSpace tmp = tmp := by
  obtain ⟨b, tmp, rfl, hb, -⟩ := startsValue_of_reads h
  exact skipSpace_self hb

theorem entries_ch {fp : DoubleText δ} {tmp rest : Bytes} {ms : List (Bytes × LeptValue δ)}
    (h : JsonReads good fp tmp (.entries ms) rest) : (init tmp).ch = 0x22 := by
  cases h with
  | lastEntry hkey hcolon h hclose => rfl
  | entry hkey hcolon h hcomma hrest => rfl

theorem parseValue_array (fp : DoubleText δ) (d : Nat) (tmp : Bytes) :
    parseValue fp (d + 1) (init (0x5B :: tmp)) =
      if (init (skipSpace tmp)).ch = 0x5D then .ok (.array []) (init (skipSpace tmp).tail)
      else arrayLoop (parseValue fp d) ((skipSpace tmp).length + 1) [] (init (skipSpace tmp)) := rfl

theorem parseValue_object (fp : DoubleText δ) (d : Nat) (tmp : Bytes) :
    parseValue fp (d + 1) (init (0x7B :: tmp)) =
      if (init (skipSpace tmp)).ch = 0x7D then .ok (.object []) (init (skipSpace tmp).tail)
      else objectLoop (parseValue fp d) ((skipSpace tmp).length + 1) [] (init (skipSpace tmp)) :=
  rfl

/-- The loop of `parse_object` behind a key and its colon. -/
theorem objectLoop_of_key {tmp tmp₁ tmp₂ k : Bytes} (hkey : ReadsString good tmp k tmp₁)
    (hcolon : skipSpace tmp₁ = 0x3A :: tmp₂) (pv : LeptContext → LeptOutcome (LeptValue δ))
    (n : Nat) (mp : List (Bytes × LeptValue δ)) :
    objectLoop pv (n + 1) mp (init (0x22 :: tmp)) =
      (pv (init (skipSpace tmp₂))).andThen fun e c =>
      let mp := OrderedMap.insert (k, e) mp
      let c := c.parseWhitespace
      if c.ch = 0x7D then .ok (.object mp) c.next
      else if c.ch = 0x2C then objectLoop pv n mp c.next.parseWhitespace
      else .error .missCommaOrCurlyBracket c := by
  have hquote : ¬ (init (0x22 :: tmp)).ch ≠ 0x22 := not_not.mpr rfl
  have hch : ¬ (init (0x3A :: tmp₂)).ch ≠ 0x3A := not_not.mpr rfl
  rw [objectLoop, if_neg hquote, parseString_of_reads hkey, LeptOutcome.ok_andThen,
    parseWhitespace_init_eq, hcolon]
  dsimp only
  rw [if_neg hch]
  rfl

/-- **`parse_value` reads what is there.** -/
theorem delivers_of_reads {fp : DoubleText δ} {tmp rest : Bytes} {p : JsonPart δ}
    (h : JsonReads good fp tmp p rest) {d : Nat} (hd : tmp.length < d) :
    Delivers fp d tmp rest p := by
  induction h generalizing d with
  | true rest =>
    obtain ⟨d, rfl⟩ : ∃ d', d = d' + 1 := ⟨d - 1, by omega⟩
    rfl
  | false rest =>
    obtain ⟨d, rfl⟩ : ∃ d', d = d' + 1 := ⟨d - 1, by omega⟩
    rfl
  | null rest =>
    obtain ⟨d, rfl⟩ : ∃ d', d = d' + 1 := ⟨d - 1, by omega⟩
    rfl
  | number h =>
    obtain ⟨d, rfl⟩ : ∃ d', d = d' + 1 := ⟨d - 1, by omega⟩
    show parseValue fp (d + 1) _ = _
    rw [parseValue_number fp d (number_ch h), h]
  | @string tmp s rest h =>
    obtain ⟨d, rfl⟩ : ∃ d', d = d' + 1 := ⟨d - 1, by omega⟩
    show (init (0x22 :: tmp)).parseString.andThen _ = _
    rw [parseString_of_reads h]
    rfl
  | @emptyArray tmp rest h =>
    obtain ⟨d, rfl⟩ : ∃ d', d = d' + 1 := ⟨d - 1, by omega⟩
    show parseValue fp (d + 1) _ = _
    rw [parseValue_array, h]
    rfl
  | @array tmp rest vs h ih =>
    obtain ⟨d, rfl⟩ : ∃ d', d = d' + 1 := ⟨d - 1, by omega⟩
    have hle := skipSpace_length_le tmp
    rw [List.length_cons] at hd
    show parseValue fp (d + 1) _ = _
    rw [parseValue_array, if_neg (startsValue_of_reads h).ch_ne]
    exact ih (by omega) _ [] (Nat.lt_succ_self _)
  | @emptyObject tmp rest h =>
    obtain ⟨d, rfl⟩ : ∃ d', d = d' + 1 := ⟨d - 1, by omega⟩
    show parseValue fp (d + 1) _ = _
    rw [parseValue_object, h]
    rfl
  | @object tmp rest ms h ih =>
    obtain ⟨d, rfl⟩ : ∃ d', d = d' + 1 := ⟨d - 1, by omega⟩
    have hle := skipSpace_length_le tmp
    rw [List.length_cons] at hd
    show parseValue fp (d + 1) _ = _
    rw [parseValue_object, if_neg (by rw [entries_ch h]; decide)]
    exact ih (by omega) _ [] (Nat.lt_succ_self _)
  | @lastElement tmp tmp₁ rest v h hclose ih =>
    intro n arr hn
    obtain ⟨n, rfl⟩ : ∃ n', n = n' + 1 := ⟨n - 1, by omega⟩
    have hv : parseValue fp d (init tmp) = .ok v (init tmp₁) := ih hd
    rw [arrayLoop, hv, LeptOutcome.ok_andThen, parseWhitespace_init_eq, hclose]
    rfl
  | @element tmp tmp₁ tmp₂ rest v vs h hcomma hrest ih ihrest =>
    intro n arr hn
    obtain ⟨n, rfl⟩ : ∃ n', n = n' + 1 := ⟨n - 1, by omega⟩
    have hlt := h.length_lt
    have hlt₁ := skipSpace_cons_lt hcomma
    have hle₂ := skipSpace_length_le tmp₂
    have hv : parseValue fp d (init tmp) = .ok v (init tmp₁) := ih hd
    rw [arrayLoop, hv, LeptOutcome.ok_andThen, parseWhitespace_init_eq, hcomma]
    have hvs := ihrest (d := d) (by omega) n (arr ++ [v]) (by omega)
    rw [List.append_assoc] at hvs
    exact hvs
  | @lastEntry tmp tmp₁ tmp₂ tmp₃ k rest v hkey hcolon h hclose ih =>
    intro n mp hn
    obtain ⟨n, rfl⟩ : ∃ n', n = n' + 1 := ⟨n - 1, by omega⟩
    have hlt := hkey.length_lt
    have hlt₁ := skipSpace_cons_lt hcolon
    have hle₂ := skipSpace_length_le tmp₂
    rw [List.length_cons] at hd
    have hv : parseValue fp d (init (skipSpace tmp₂)) = .ok v (init tmp₃) := ih (by omega)
    rw [objectLoop_of_key hkey hcolon, hv, LeptOutcome.ok_andThen, parseWhitespace_init_eq, hclose]
    rfl
  | @entry tmp tmp₁ tmp₂ tmp₃ tmp₄ k rest v ms hkey hcolon h hcomma hrest ih ihrest =>
    intro n mp hn
    obtain ⟨n, rfl⟩ : ∃ n', n = n' + 1 := ⟨n - 1, by omega⟩
    have hlt := hkey.length_lt
    have hlt₁ := skipSpace_cons_lt hcolon
    have hle₂ := skipSpace_length_le tmp₂
    have hlt₃ := h.length_lt
    have hlt₄ := skipSpace_cons_lt hcomma
    have hle₅ := skipSpace_length_le tmp₄
    rw [List.length_cons] at hd hn
    have hv : parseValue fp d (init (skipSpace tmp₂)) = .ok v (init tmp₃) := ih (by omega)
    rw [objectLoop_of_key hkey hcolon, hv, LeptOutcome.ok_andThen, parseWhitespace_init_eq, hcomma]
    exact ihrest (d := d) (by omega) n (OrderedMap.insert (k, v) mp) (by omega)

/-- Only one value is read, and only one end is left. -/
theorem reads_unique {good' : Bytes → Prop} {fp : DoubleText δ} {tmp rest rest' : Bytes}
    {v v' : LeptValue δ} (h : JsonReads good fp tmp (.value v) rest)
    (h' : JsonReads good' fp tmp (.value v') rest') : v = v' ∧ rest = rest' := by
  have hv : parseValue fp (tmp.length + 1) (init tmp) = .ok v (init rest) :=
    delivers_of_reads h (Nat.lt_succ_self _)
  have hv' : parseValue fp (tmp.length + 1) (init tmp) = .ok v' (init rest') :=
    delivers_of_reads h' (Nat.lt_succ_self _)
  obtain ⟨hvalue, hrest⟩ := LeptOutcome.ok.inj (hv.symm.trans hv')
  exact ⟨hvalue, congrArg LeptContext.rest hrest⟩

/-- What they do with a text in which a string breaks off. -/
def Fails (fp : DoubleText δ) (d : Nat) (tmp : Bytes) : PartKind → Prop
  | .value => (parseValue fp d (init tmp)).LeavesChars
  | .elements => ∀ n arr, tmp.length < n →
      (arrayLoop (parseValue fp d) n arr (init tmp)).LeavesChars
  | .entries => ∀ n mp, tmp.length < n →
      (objectLoop (parseValue fp d) n mp (init tmp)).LeavesChars

theorem startsValue_of_breaks {fp : DoubleText δ} {tmp : Bytes} {kind : PartKind}
    (h : JsonBreaks fp kind tmp) : StartsValue tmp := by
  induction h with
  | string h => exact ⟨0x22, _, rfl, by decide⟩
  | array h ih => exact ⟨0x5B, _, rfl, by decide⟩
  | object h ih => exact ⟨0x7B, _, rfl, by decide⟩
  | element h ih => exact ih
  | elements h hcomma hrest ih => exact startsValue_of_reads h
  | key h => exact ⟨0x22, _, rfl, by decide⟩
  | entry hkey hcolon h ih => exact ⟨0x22, _, rfl, by decide⟩
  | entries hkey hcolon h hcomma hrest ih => exact ⟨0x22, _, rfl, by decide⟩

theorem entries_ch_of_breaks {fp : DoubleText δ} {tmp : Bytes} (h : JsonBreaks fp .entries tmp) :
    (init tmp).ch = 0x22 := by
  cases h with
  | key h => rfl
  | entry hkey hcolon h => rfl
  | entries hkey hcolon h hcomma hrest => rfl

/-- **Where a string breaks off, characters stay on the stack.** -/
theorem fails_of_breaks {fp : DoubleText δ} {tmp : Bytes} {kind : PartKind}
    (h : JsonBreaks fp kind tmp) {d : Nat} (hd : tmp.length < d) : Fails fp d tmp kind := by
  induction h generalizing d with
  | @string tmp h =>
    obtain ⟨d, rfl⟩ : ∃ d', d = d' + 1 := ⟨d - 1, by omega⟩
    exact (parseString_of_breaks h).andThen _
  | @array tmp h ih =>
    obtain ⟨d, rfl⟩ : ∃ d', d = d' + 1 := ⟨d - 1, by omega⟩
    have hle := skipSpace_length_le tmp
    rw [List.length_cons] at hd
    rw [Fails, parseValue_array, if_neg (startsValue_of_breaks h).ch_ne]
    exact ih (by omega) _ [] (Nat.lt_succ_self _)
  | @object tmp h ih =>
    obtain ⟨d, rfl⟩ : ∃ d', d = d' + 1 := ⟨d - 1, by omega⟩
    have hle := skipSpace_length_le tmp
    rw [List.length_cons] at hd
    rw [Fails, parseValue_object, if_neg (by rw [entries_ch_of_breaks h]; decide)]
    exact ih (by omega) _ [] (Nat.lt_succ_self _)
  | @element tmp h ih =>
    intro n arr hn
    obtain ⟨n, rfl⟩ : ∃ n', n = n' + 1 := ⟨n - 1, by omega⟩
    have hv : (parseValue fp d (init tmp)).LeavesChars := ih hd
    exact hv.andThen _
  | @elements tmp tmp₁ tmp₂ v h hcomma hrest ih =>
    intro n arr hn
    obtain ⟨n, rfl⟩ : ∃ n', n = n' + 1 := ⟨n - 1, by omega⟩
    have hlt := h.length_lt
    have hlt₁ := skipSpace_cons_lt hcomma
    have hle₂ := skipSpace_length_le tmp₂
    have hv : parseValue fp d (init tmp) = .ok v (init tmp₁) := delivers_of_reads h hd
    rw [arrayLoop, hv, LeptOutcome.ok_andThen, parseWhitespace_init_eq, hcomma]
    exact ih (d := d) (by omega) n (arr ++ [v]) (by omega)
  | @key tmp h =>
    intro n mp hn
    obtain ⟨n, rfl⟩ : ∃ n', n = n' + 1 := ⟨n - 1, by omega⟩
    exact (parseString_of_breaks h).andThen _
  | @entry tmp tmp₁ tmp₂ k hkey hcolon h ih =>
    intro n mp hn
    obtain ⟨n, rfl⟩ : ∃ n', n = n' + 1 := ⟨n - 1, by omega⟩
    have hlt := hkey.length_lt
    have hlt₁ := skipSpace_cons_lt hcolon
    have hle₂ := skipSpace_length_le tmp₂
    rw [List.length_cons] at hd
    have hv : (parseValue fp d (init (skipSpace tmp₂))).LeavesChars := ih (by omega)
    rw [objectLoop_of_key hkey hcolon]
    exact hv.andThen _
  | @entries tmp tmp₁ tmp₂ tmp₃ tmp₄ k v hkey hcolon h hcomma hrest ih =>
    intro n mp hn
    obtain ⟨n, rfl⟩ : ∃ n', n = n' + 1 := ⟨n - 1, by omega⟩
    have hlt := hkey.length_lt
    have hlt₁ := skipSpace_cons_lt hcolon
    have hle₂ := skipSpace_length_le tmp₂
    have hlt₃ := h.length_lt
    have hlt₄ := skipSpace_cons_lt hcomma
    have hle₅ := skipSpace_length_le tmp₄
    rw [List.length_cons] at hd hn
    have hv : parseValue fp d (init (skipSpace tmp₂)) = .ok v (init tmp₃) :=
      delivers_of_reads h (by omega)
    rw [objectLoop_of_key hkey hcolon, hv, LeptOutcome.ok_andThen, parseWhitespace_init_eq, hcomma]
    exact ih (d := d) (by omega) n (OrderedMap.insert (k, v) mp) (by omega)

/-- **When `parse_value` leaves characters on the stack.** -/
theorem parseValue_leavesChars_iff {fp : DoubleText δ} {d : Nat} {tmp : Bytes}
    (hd : tmp.length < d) :
    (parseValue fp d (init tmp)).LeavesChars ↔ JsonBreaks fp .value tmp := by
  constructor
  · rintro ⟨ret, c, h, htop⟩
    have hread := parseValue_explained fp d tmp hd
    rw [h] at hread
    exact hread htop
  · exact fun h => fails_of_breaks h hd

end LeptContext

/-- What `lept_value::parse` looks at. -/
def parsedText (json : Bytes) : Bytes := skipSpace (json ++ [0])

theorem parsedText_length_lt (json : Bytes) : (parsedText json).length < json.length + 2 := by
  have hle := skipSpace_length_le (json ++ [0])
  rw [List.length_append, List.length_singleton] at hle
  exact Nat.lt_succ_of_le hle

theorem parse_eq (fp : DoubleText δ) (json : Bytes) :
    LeptValue.parse fp json =
      match LeptContext.parseValue fp (json.length + 2) (.init (parsedText json)) with
      | .ok v c => if c.strTop = 0 then .ok (v, none) else .error .assertion
      | .error ret c =>
        let ret := if c.parseWhitespace.rest.length ≠ 1 then .rootNotSingular else ret
        if c.strTop = 0 then .ok (.null, some ret) else .error .assertion
      | .halt h => .error h := rfl

/-- **`lept_value::parse` accepts a text that begins with a value**, whatever follows. -/
theorem parse_of_reads {fp : DoubleText δ} {json rest : Bytes} {v : LeptValue δ}
    (h : JsonReads good fp (parsedText json) (.value v) rest) :
    LeptValue.parse fp json = .ok (v, none) := by
  have hread : LeptContext.parseValue fp (json.length + 2) (.init (parsedText json)) =
      .ok v (.init rest) := LeptContext.delivers_of_reads h (parsedText_length_lt json)
  rw [parse_eq, hread]
  rfl

/-- **Its assertion fails where a string breaks off.** -/
theorem parse_of_breaks {fp : DoubleText δ} {json : Bytes}
    (h : JsonBreaks fp .value (parsedText json)) :
    LeptValue.parse fp json = .error .assertion := by
  obtain ⟨ret, c, hfail, htop⟩ :=
    (LeptContext.parseValue_leavesChars_iff (parsedText_length_lt json)).mpr h
  rw [parse_eq, hfail]
  exact if_neg htop

/-- **Every other text is an error.** -/
theorem parse_of_neither {fp : DoubleText δ} {json : Bytes}
    (hreads : ∀ v rest, ¬ JsonReads AnyRound fp (parsedText json) (.value v) rest)
    (hbreaks : ¬ JsonBreaks fp .value (parsedText json)) :
    ∃ ret, LeptValue.parse fp json = .ok (.null, some ret) := by
  have hread := LeptContext.parseValue_explained fp (json.length + 2) (parsedText json)
    (parsedText_length_lt json)
  rw [parse_eq]
  cases hr : LeptContext.parseValue fp (json.length + 2) (.init (parsedText json)) with
  | ok v c =>
    rw [hr] at hread
    obtain ⟨rest, rfl, h⟩ := hread
    exact absurd h (hreads v rest)
  | error ret c =>
    rw [hr] at hread
    have htop : c.strTop = 0 := by_contra fun htop => hbreaks (hread htop)
    exact ⟨_, if_pos htop⟩
  | halt e =>
    rw [hr] at hread
    exact hread.elim

theorem parse_eq_ok_iff {fp : DoubleText δ} {json : Bytes} {v : LeptValue δ} :
    LeptValue.parse fp json = .ok (v, none) ↔
      ∃ rest, JsonReads AnyRound fp (parsedText json) (.value v) rest := by
  constructor
  · intro h
    by_contra hreads
    by_cases hbreaks : JsonBreaks fp .value (parsedText json)
    · rw [parse_of_breaks hbreaks] at h
      exact absurd h (by simp)
    · by_cases hany : ∃ w rest, JsonReads AnyRound fp (parsedText json) (.value w) rest
      · obtain ⟨w, rest, hw⟩ := hany
        rw [parse_of_reads hw] at h
        obtain rfl : w = v := congrArg Prod.fst (Except.ok.inj h)
        exact hreads ⟨rest, hw⟩
      · obtain ⟨ret, herror⟩ :=
          parse_of_neither (fun w rest hw => hany ⟨w, rest, hw⟩) hbreaks
        rw [herror] at h
        exact absurd (congrArg Prod.snd (Except.ok.inj h)) (by simp)
  · rintro ⟨rest, h⟩
    exact parse_of_reads h

theorem parse_eq_assertion_iff {fp : DoubleText δ} {json : Bytes} :
    LeptValue.parse fp json = .error .assertion ↔ JsonBreaks fp .value (parsedText json) := by
  constructor
  · intro h
    by_contra hbreaks
    by_cases hany : ∃ w rest, JsonReads AnyRound fp (parsedText json) (.value w) rest
    · obtain ⟨w, rest, hw⟩ := hany
      rw [parse_of_reads hw] at h
      exact absurd h (by simp)
    · obtain ⟨ret, herror⟩ := parse_of_neither (fun w rest hw => hany ⟨w, rest, hw⟩) hbreaks
      rw [herror] at h
      exact absurd h (by simp)
  · exact parse_of_breaks

end MyWebSocket
