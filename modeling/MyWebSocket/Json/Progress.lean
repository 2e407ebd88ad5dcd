import MyWebSocket.Json.Parse

namespace MyWebSocket

/-!
# What the JSON parser consumes

* Inversion lemmas for the rounds of the string loop: what a round that pushes characters has
  read.
* Every function that returns `LEPT_PARSE_OK` has moved `ptr` forward (`parseValue_progress`).
* So no loop and no recursion outlives its fuel (`parse_ne_fuel`).
-/

/-! ### Skipping characters -/

/-- `rest` is left of `tmp` when some characters with the property `p` are read. -/
def Skips (p : UInt8 → Prop) (tmp rest : Bytes) : Prop := ∃ x, tmp = x ++ rest ∧ ∀ b ∈ x, p b

namespace Skips

variable {p : UInt8 → Prop} {tmp rest rest' : Bytes}

theorem refl (tmp : Bytes) : Skips p tmp tmp := ⟨[], rfl, fun _ h => absurd h List.not_mem_nil⟩

theorem trans (h : Skips p tmp rest) (h' : Skips p rest rest') : Skips p tmp rest' := by
  obtain ⟨x, rfl, hx⟩ := h
  obtain ⟨y, rfl, hy⟩ := h'
  refine ⟨x ++ y, (List.append_assoc x y rest').symm, fun b hb => ?_⟩
  rcases List.mem_append.mp hb with hb | hb
  · exact hx b hb
  · exact hy b hb

theorem cons {b : UInt8} (hb : p b) (h : Skips p tmp rest) : Skips p (b :: tmp) rest := by
  obtain ⟨x, rfl, hx⟩ := h
  refine ⟨b :: x, rfl, fun b' hb' => ?_⟩
  rcases List.mem_cons.mp hb' with rfl | hb'
  · exact hb
  · exact hx b' hb'

/-- One character; at the end of the text there is nothing to skip. -/
theorem tail (h : p (tmp.headD 0)) : Skips p tmp tmp.tail := by
  cases tmp with
  | nil => exact refl []
  | cons b tmp => exact cons h (refl tmp)

theorem dropWhile {q : UInt8 → Bool} (hq : ∀ b, q b = true → p b) (tmp : Bytes) :
    Skips p tmp (tmp.dropWhile q) :=
  ⟨tmp.takeWhile q, List.takeWhile_append_dropWhile.symm,
    fun b hb => hq b (List.mem_takeWhile_imp hb)⟩

theorem length_le (h : Skips p tmp rest) : rest.length ≤ tmp.length := by
  obtain ⟨x, rfl, -⟩ := h
  exact List.length_append ▸ Nat.le_add_left _ _

end Skips

/-- A byte of a class is none that is not in the class. -/
theorem ne_of_class {p : UInt8 → Bool} {b x : UInt8} (hb : p b = true) (hx : p x = false) :
    b ≠ x := by
  rintro rfl
  rw [hb] at hx
  exact Bool.noConfusion hx

/-! ### Rounds of the string loop -/

theorem hexDigit_zero : hexDigit 0 = none := by decide

theorem hexDigit_quote : hexDigit 0x22 = none := by decide

/-- The characters `parse_hex4` reads are all there and are digits. -/
theorem hex4Loop_eq_some {n u u' : Nat} {tmp rest : Bytes}
    (h : hex4Loop n u tmp = some (u', rest)) :
    ∃ ds, tmp = ds ++ rest ∧ ds.length = n ∧ ∀ b ∈ ds, b ≠ 0x22 := by
  induction n generalizing u tmp with
  | zero =>
    obtain ⟨-, rfl⟩ : u = u' ∧ tmp = rest := by simpa [hex4Loop] using h
    exact ⟨[], rfl, rfl, fun b hb => absurd hb List.not_mem_nil⟩
  | succ n ih =>
    rw [hex4Loop] at h
    cases tmp with
    | nil =>
      rw [List.headD_nil, hexDigit_zero] at h
      exact absurd h (by simp)
    | cons b tmp =>
      rw [List.headD_cons, List.tail_cons] at h
      cases hd : hexDigit b with
      | none =>
        rw [hd] at h
        exact absurd h (by simp)
      | some d =>
        rw [hd] at h
        obtain ⟨ds, rfl, hlen, hds⟩ := ih h
        refine ⟨b :: ds, rfl, by rw [List.length_cons, hlen], ?_⟩
        intro b' hb'
        rcases List.mem_cons.mp hb' with rfl | hb'
        · rintro rfl
          rw [hexDigit_quote] at hd
          exact absurd hd (by simp)
        · exact hds b' hb'

theorem pushUtf8_eq_push {u : Nat} {tmp bs rest : Bytes} (h : pushUtf8 u tmp = .push bs rest) :
    rest = tmp ∧ encodeUtf8 u = some bs := by
  unfold pushUtf8 at h
  split at h
  · next bs' hu =>
    obtain ⟨rfl, rfl⟩ := StringRound.push.inj h
    exact ⟨rfl, hu⟩
  · exact absurd h (by simp)

/-- **What a `\u` escape reads**: a number, and a second escape behind the first half of a surrogate
    pair. -/
theorem unicodeRound_push_cases {tmp bs rest : Bytes} (h : unicodeRound tmp = .push bs rest) :
    ∃ u tmp₁, parseHex4 tmp = some (u, tmp₁) ∧
      ((¬ (0xD800 ≤ u ∧ u ≤ 0xDBFF) ∧ rest = tmp₁ ∧ encodeUtf8 u = some bs) ∨
        (0xD800 ≤ u ∧ u ≤ 0xDBFF) ∧ ∃ u2 tmp₂, tmp₁ = 0x5C :: 0x75 :: tmp₂ ∧
          parseHex4 tmp₂ = some (u2, rest) ∧ (0xDC00 ≤ u2 ∧ u2 ≤ 0xDFFF) ∧
            encodeUtf8 ((((u - 0xD800) <<< 10) ||| (u2 - 0xDC00)) + 0x10000) = some bs) := by
  unfold unicodeRound at h
  split at h
  · exact absurd h (by simp)
  · next u tmp₁ hu =>
    refine ⟨u, tmp₁, hu, ?_⟩
    split at h
    · next hhigh =>
      -- a surrogate: the second half has to follow
      split at h
      · exact absurd h (by simp)
      · next hslash =>
        split at h
        · exact absurd h (by simp)
        · next hu' =>
          split at h
          · exact absurd h (by simp)
          · next u2 tmp₂ hu2 =>
            split at h
            · exact absurd h (by simp)
            · next hlow =>
              obtain ⟨rfl, hbs⟩ := pushUtf8_eq_push h
              rw [not_or, Nat.not_lt, Nat.not_lt] at hlow
              refine .inr ⟨hhigh, ?_⟩
              rcases tmp₁ with _ | ⟨b1, _ | ⟨b2, tmp₁⟩⟩
              · exact absurd hslash (by simp)
              · exact absurd hu' (by simp)
              · obtain rfl : b1 = 0x5C := by simpa using hslash
                obtain rfl : b2 = 0x75 := by simpa using hu'
                exact ⟨u2, tmp₁, rfl, hu2, hlow, hbs⟩
    · next hhigh => exact .inl ⟨hhigh, pushUtf8_eq_push h⟩

theorem unicodeRound_eq_push {tmp bs rest : Bytes} (h : unicodeRound tmp = .push bs rest) :
    ∃ x, tmp = x ++ rest ∧ (∀ b ∈ x, b ≠ 0x22) ∧ ∃ u, encodeUtf8 u = some bs := by
  obtain ⟨u, tmp₁, hu, ⟨-, rfl, hbs⟩ | ⟨-, u2, tmp₂, rfl, hu2, -, hbs⟩⟩ :=
    unicodeRound_push_cases h
  · obtain ⟨ds, rfl, -, hds⟩ := hex4Loop_eq_some hu
    exact ⟨ds, rfl, hds, u, hbs⟩
  · obtain ⟨ds, rfl, -, hds⟩ := hex4Loop_eq_some hu
    obtain ⟨ds2, rfl, -, hds2⟩ := hex4Loop_eq_some hu2
    refine ⟨ds ++ 0x5C :: 0x75 :: ds2, by simp, ?_, _, hbs⟩
    intro b hb
    simp only [List.mem_append, List.mem_cons] at hb
    rcases hb with hb | rfl | rfl | hb
    · exact hds b hb
    · decide
    · decide
    · exact hds2 b hb

/-- **What an escape reads**: a character, or `u` and the digits behind it. -/
theorem escapeRound_push_cases {tmp bs rest : Bytes} (h : escapeRound tmp = .push bs rest) :
    (∃ ch b, tmp = ch :: rest ∧ simpleEscape ch = some b ∧ bs = [b]) ∨
      ∃ tmp₁, tmp = 0x75 :: tmp₁ ∧ unicodeRound tmp₁ = .push bs rest := by
  cases tmp with
  | nil =>
    have hnil : escapeRound [] = .fail .invalidStringChar := by decide
    rw [hnil] at h
    exact absurd h (by simp)
  | cons ch tmp =>
    rw [escapeRound, List.headD_cons, List.tail_cons] at h
    split at h
    · next b hb =>
      obtain ⟨rfl, rfl⟩ := StringRound.push.inj h
      exact Or.inl ⟨ch, b, rfl, hb, rfl⟩
    · split at h
      · next hu =>
        subst hu
        exact Or.inr ⟨tmp, rfl, h⟩
      · exact absurd h (by simp)

theorem escapeRound_eq_push {tmp bs rest : Bytes} (h : escapeRound tmp = .push bs rest) :
    (∃ ch b, tmp = ch :: rest ∧ simpleEscape ch = some b ∧ bs = [b]) ∨
      ∃ x, tmp = 0x75 :: (x ++ rest) ∧ (∀ b ∈ x, b ≠ 0x22) ∧ ∃ u, encodeUtf8 u = some bs := by
  rcases escapeRound_push_cases h with hshort | ⟨tmp₁, rfl, hunicode⟩
  · exact Or.inl hshort
  · obtain ⟨x, rfl, hx, hbs⟩ := unicodeRound_eq_push hunicode
    exact Or.inr ⟨x, rfl, hx, hbs⟩

theorem stringRound_quote (tmp : Bytes) : stringRound (0x22 :: tmp) = .close tmp := rfl

theorem stringRound_backslash (tmp : Bytes) : stringRound (0x5C :: tmp) = escapeRound tmp := rfl

/-- A character that stands for itself in a string. -/
def IsRaw (ch : UInt8) : Prop := ch ≠ 0x22 ∧ ch ≠ 0x5C ∧ ¬ ch < 0x20

instance (ch : UInt8) : Decidable (IsRaw ch) := inferInstanceAs (Decidable (_ ∧ _ ∧ _))

theorem stringRound_raw {ch : UInt8} (h : IsRaw ch) (tmp : Bytes) :
    stringRound (ch :: tmp) = .push [ch] tmp := by
  obtain ⟨hquote, hslash, hctl⟩ := h
  have hzero : ch ≠ 0 := by
    rintro rfl
    exact hctl (by decide)
  simp [stringRound, hquote, hslash, hzero, hctl]

theorem stringRound_control {ch : UInt8} (h : ch < 0x20) (tmp : Bytes) :
    ∃ ret, stringRound (ch :: tmp) = .reset ret := by
  have hquote : ch ≠ 0x22 := by
    rintro rfl
    exact absurd h (by decide)
  have hslash : ch ≠ 0x5C := by
    rintro rfl
    exact absurd h (by decide)
  by_cases hzero : ch = 0
  · exact ⟨.missQuotationMark, by simp [stringRound, hzero]⟩
  · exact ⟨.invalidStringChar, by simp [stringRound, hquote, hslash, hzero, h]⟩

/-- **What a round of the string loop can be.** -/
theorem stringRound_cases (ch : UInt8) (tmp : Bytes) :
    (ch = 0x22 ∧ stringRound (ch :: tmp) = .close tmp) ∨
      (ch = 0x5C ∧ stringRound (ch :: tmp) = escapeRound tmp) ∨
      (ch < 0x20 ∧ ∃ ret, stringRound (ch :: tmp) = .reset ret) ∨
      (IsRaw ch ∧ stringRound (ch :: tmp) = .push [ch] tmp) := by
  by_cases hquote : ch = 0x22
  · subst hquote
    exact Or.inl ⟨rfl, rfl⟩
  by_cases hslash : ch = 0x5C
  · subst hslash
    exact Or.inr (Or.inl ⟨rfl, rfl⟩)
  by_cases hctl : ch < 0x20
  · exact Or.inr (Or.inr (Or.inl ⟨hctl, stringRound_control hctl tmp⟩))
  · have hraw : IsRaw ch := ⟨hquote, hslash, hctl⟩
    exact Or.inr (Or.inr (Or.inr ⟨hraw, stringRound_raw hraw tmp⟩))

theorem stringRound_nil : stringRound [] = .reset .missQuotationMark := rfl

theorem stringRound_push_length {tmp bs rest : Bytes} (h : stringRound tmp = .push bs rest) :
    rest.length < tmp.length := by
  cases tmp with
  | nil =>
    rw [stringRound_nil] at h
    exact absurd h (by simp)
  | cons ch tmp =>
    rcases stringRound_cases ch tmp with ⟨-, hr⟩ | ⟨-, hr⟩ | ⟨-, ret, hr⟩ | ⟨-, hr⟩
    · rw [hr] at h
      exact absurd h (by simp)
    · rw [hr] at h
      rcases escapeRound_eq_push h with ⟨ch', b, rfl, -, -⟩ | ⟨x, rfl, -⟩
      · simp only [List.length_cons]
        omega
      · simp only [List.length_cons, List.length_append]
        omega
    · rw [hr] at h
      exact absurd h (by simp)
    · rw [hr] at h
      obtain ⟨-, rfl⟩ := StringRound.push.inj h
      exact Nat.lt_succ_self _

theorem pushUtf8_ne_close (u : Nat) (tmp rest : Bytes) : pushUtf8 u tmp ≠ .close rest := by
  unfold pushUtf8
  split <;> simp

theorem unicodeRound_ne_close (tmp rest : Bytes) : unicodeRound tmp ≠ .close rest := by
  unfold unicodeRound
  split
  · simp
  · split
    · split
      · simp
      · split
        · simp
        · split
          · simp
          · split
            · simp
            · exact pushUtf8_ne_close _ _ _
    · exact pushUtf8_ne_close _ _ _

theorem escapeRound_ne_close (tmp rest : Bytes) : escapeRound tmp ≠ .close rest := by
  unfold escapeRound
  split
  · simp
  · split
    · exact unicodeRound_ne_close _ _
    · simp

/-- Only a quotation mark closes the string. -/
theorem stringRound_close {tmp rest : Bytes} (h : stringRound tmp = .close rest) :
    tmp = 0x22 :: rest := by
  cases tmp with
  | nil =>
    rw [stringRound_nil] at h
    exact absurd h (by simp)
  | cons ch tmp =>
    rcases stringRound_cases ch tmp with ⟨rfl, hr⟩ | ⟨-, hr⟩ | ⟨-, ret, hr⟩ | ⟨-, hr⟩
    · rw [hr] at h
      rw [StringRound.close.inj h]
    · rw [hr] at h
      exact absurd h (escapeRound_ne_close tmp rest)
    · rw [hr] at h
      exact absurd h (by simp)
    · rw [hr] at h
      exact absurd h (by simp)

/-! ### The functions of the context -/

/-- The outcome is not that the fuel ran out, and a result leaves fewer than `n` characters. -/
def LeptOutcome.Advances {β : Type} (n : Nat) : LeptOutcome β → Prop
  | .ok _ c => c.rest.length < n
  | .error _ _ => True
  | .halt h => h ≠ .fuel

theorem LeptOutcome.Advances.mono {β : Type} {n m : Nat} {r : LeptOutcome β} (h : r.Advances n)
    (hnm : n ≤ m) : r.Advances m := by
  cases r with
  | ok b c => exact lt_of_lt_of_le h hnm
  | error ret c => trivial
  | halt e => exact h

theorem LeptOutcome.Advances.andThen {β γ : Type} {n m : Nat} {r : LeptOutcome β}
    {f : β → LeptContext → LeptOutcome γ} (h : r.Advances n)
    (hf : ∀ b c, c.rest.length < n → (f b c).Advances m) : (r.andThen f).Advances m := by
  cases r with
  | ok b c => exact hf b c h
  | error ret c => trivial
  | halt e => exact h

namespace LeptContext

theorem rest_eq {c : LeptContext} {x : UInt8} (h : c.ch = x) (hx : x ≠ 0) :
    c.rest = x :: c.next.rest := by
  unfold ch at h
  unfold next
  cases hc : c.rest with
  | nil =>
    rw [hc] at h
    exact absurd h.symm hx
  | cons b tmp =>
    rw [hc, List.headD_cons] at h
    rw [h]
    rfl

theorem next_length_lt {c : LeptContext} {x : UInt8} (h : c.ch = x) (hx : x ≠ 0) :
    c.next.rest.length < c.rest.length := by
  rw [rest_eq h hx]
  exact Nat.lt_succ_self _

theorem parseWhitespace_length_le (c : LeptContext) :
    c.parseWhitespace.rest.length ≤ c.rest.length := (List.dropWhile_sublist _).length_le

theorem stringLoop_advances (head : Nat) {n : Nat} {tmp : Bytes} (hn : tmp.length < n)
    (c : LeptContext) : (stringLoop head n tmp c).Advances tmp.length := by
  induction n generalizing tmp c with
  | zero => exact absurd hn (Nat.not_lt_zero _)
  | succ n ih =>
    rw [stringLoop]
    cases hr : stringRound tmp with
    | push bs rest =>
      have hlt := stringRound_push_length hr
      exact (ih (by omega) _).mono hlt.le
    | close rest =>
      have hlen : rest.length < tmp.length := by
        rw [stringRound_close hr]
        exact Nat.lt_succ_self _
      show LeptOutcome.Advances _ (if head ≤ c.strTop then _ else _)
      split
      · exact hlen
      · exact Halt.noConfusion
    | reset ret => trivial
    | fail ret => trivial
    | abort => exact Halt.noConfusion

theorem parseString_advances (c : LeptContext) : c.parseString.Advances c.rest.length := by
  unfold parseString
  split
  · next hch =>
    have hrest := rest_eq hch (by decide)
    have hlen : c.rest.tail.length < c.rest.length := by
      rw [hrest]
      exact Nat.lt_succ_self _
    exact (stringLoop_advances _ hlen c).mono hlen.le
  · exact Halt.noConfusion

theorem parseLiteral_advances {β : Type} {literal : Bytes} (hne : literal ≠ []) (v : β)
    (c : LeptContext) : (c.parseLiteral literal v).Advances c.rest.length := by
  unfold parseLiteral
  split
  · exact Halt.noConfusion
  · split
    · next hlit =>
      obtain ⟨rest, hrest⟩ := List.isPrefixOf_iff_prefix.mp hlit
      have hpos : 0 < literal.length := List.length_pos_iff.mpr hne
      show (c.rest.drop literal.length).length < c.rest.length
      rw [← hrest, List.drop_left, List.length_append]
      omega
    · trivial

/-! ### Numbers -/

/-- A character of a number. -/
def IsNumeric (b : UInt8) : Prop :=
  isDigit b = true ∨ b = 0x2D ∨ b = 0x2B ∨ b = 0x2E ∨ b = 0x65 ∨ b = 0x45

theorem isNumeric_of_isDigit (b : UInt8) (h : isDigit b = true) : IsNumeric b := Or.inl h

theorem scanDigits_skips {tmp rest : Bytes} (h : scanDigits tmp = some rest) :
    Skips IsNumeric tmp rest := by
  unfold scanDigits at h
  split at h
  · next hd =>
    obtain rfl := Option.some.inj h
    have htail : Skips IsNumeric tmp tmp.tail := Skips.tail (Or.inl hd)
    exact htail.trans (Skips.dropWhile isNumeric_of_isDigit _)
  · exact absurd h (by simp)

theorem tail_length_lt {tmp : Bytes} (h : tmp.headD 0 ≠ 0) : tmp.tail.length < tmp.length := by
  cases tmp with
  | nil => exact absurd rfl h
  | cons b tmp => exact Nat.lt_succ_self _

theorem isDigit_of_isDigit1to9 {b : UInt8} (h : isDigit1to9 b = true) : isDigit b = true := by
  simp only [isDigit1to9, isDigit, Bool.and_eq_true, decide_eq_true_eq,
    UInt8.le_iff_toNat_le] at h ⊢
  obtain ⟨hlow, hhigh⟩ := h
  exact ⟨le_trans (by decide) hlow, hhigh⟩

/-- There is an integer part. -/
theorem scanInt_skips {tmp rest : Bytes} (h : scanInt tmp = some rest) :
    Skips IsNumeric tmp rest ∧ rest.length < tmp.length := by
  unfold scanInt at h
  split at h
  · next hz =>
    obtain rfl := Option.some.inj h
    refine ⟨Skips.tail ?_, tail_length_lt ?_⟩
    · rw [hz]
      exact isNumeric_of_isDigit _ (by decide)
    · rw [hz]
      decide
  · split at h
    · next hd =>
      obtain rfl := Option.some.inj h
      have hdigit := isDigit_of_isDigit1to9 hd
      have htail : Skips IsNumeric tmp tmp.tail := Skips.tail (Or.inl hdigit)
      have hdrop : Skips IsNumeric tmp.tail (tmp.tail.dropWhile isDigit) :=
        Skips.dropWhile isNumeric_of_isDigit _
      refine ⟨htail.trans hdrop, lt_of_le_of_lt hdrop.length_le (tail_length_lt fun h0 => ?_)⟩
      rw [h0] at hdigit
      exact absurd hdigit (by decide)
    · exact absurd h (by simp)

theorem scanFrac_skips {tmp rest : Bytes} {i : Bool} (h : scanFrac tmp = some (rest, i)) :
    Skips IsNumeric tmp rest := by
  unfold scanFrac at h
  split at h
  · next hdot =>
    obtain ⟨rest', hscan, heq⟩ := Option.map_eq_some_iff.mp h
    obtain rfl : rest' = rest := congrArg Prod.fst heq
    have htail : Skips IsNumeric tmp tmp.tail := Skips.tail (by rw [hdot]; simp [IsNumeric])
    exact htail.trans (scanDigits_skips hscan)
  · obtain rfl : tmp = rest := congrArg Prod.fst (Option.some.inj h)
    exact Skips.refl tmp

theorem scanExp_skips {tmp rest : Bytes} {i i' : Bool} (h : scanExp tmp i = some (rest, i')) :
    Skips IsNumeric tmp rest := by
  unfold scanExp at h
  split at h
  · next he =>
    obtain ⟨rest', hscan, heq⟩ := Option.map_eq_some_iff.mp h
    obtain rfl : rest' = rest := congrArg Prod.fst heq
    have htail : Skips IsNumeric tmp tmp.tail := by
      apply Skips.tail
      rcases he with he | he
      · rw [he]
        simp [IsNumeric]
      · rw [he]
        simp [IsNumeric]
    refine htail.trans (Skips.trans ?_ (scanDigits_skips hscan))
    split
    · next hsign =>
      apply Skips.tail
      rcases hsign with hsign | hsign
      · rw [hsign]
        simp [IsNumeric]
      · rw [hsign]
        simp [IsNumeric]
    · exact Skips.refl _
  · obtain rfl : tmp = rest := congrArg Prod.fst (Option.some.inj h)
    exact Skips.refl tmp

/-- **What a number reads.** -/
theorem scanNumber_skips {tmp rest : Bytes} {i : Bool} (h : scanNumber tmp = some (rest, i)) :
    Skips IsNumeric tmp rest ∧ rest.length < tmp.length := by
  have hsign : Skips IsNumeric tmp (if tmp.headD 0 = 0x2D then tmp.tail else tmp) := by
    split
    · next hminus => exact Skips.tail (by rw [hminus]; simp [IsNumeric])
    · exact Skips.refl tmp
  unfold scanNumber at h
  obtain ⟨tmp₁, hint, h⟩ := Option.bind_eq_some_iff.mp h
  obtain ⟨⟨tmp₂, i₂⟩, hfrac, hexp⟩ := Option.bind_eq_some_iff.mp h
  obtain ⟨hskip, hlt⟩ := scanInt_skips hint
  have hrest : Skips IsNumeric tmp₁ rest := (scanFrac_skips hfrac).trans (scanExp_skips hexp)
  refine ⟨hsign.trans (hskip.trans hrest), ?_⟩
  have hle := hsign.length_le
  have hle' := hrest.length_le
  omega

variable {δ : Type}

/-- **A number that is read** is skipped. -/
theorem parseNumber_eq_ok {fp : DoubleText δ} {c c' : LeptContext} {v : LeptValue δ}
    (h : c.parseNumber fp = .ok v c') :
    Skips IsNumeric c.rest c'.rest ∧ c'.rest.length < c.rest.length ∧
      ((∃ i, v = .integer i) ∨ ∃ n, v = .number n) ∧ c'.stkStr = c.stkStr := by
  unfold parseNumber at h
  split at h
  · exact absurd h (by simp)
  · next tmp isInteger hscan =>
    obtain ⟨hskip, hlt⟩ := scanNumber_skips hscan
    dsimp only at h
    split at h
    · split at h
      · exact absurd h (by simp)
      · obtain ⟨rfl, rfl⟩ := LeptOutcome.ok.inj h
        exact ⟨hskip, hlt, Or.inl ⟨_, rfl⟩, rfl⟩
    · split at h
      · exact absurd h (by simp)
      · obtain ⟨rfl, rfl⟩ := LeptOutcome.ok.inj h
        exact ⟨hskip, hlt, Or.inr ⟨_, rfl⟩, rfl⟩

/-- What `parse_number` makes of the number `t`. -/
theorem parseNumber_append (fp : DoubleText δ) {t rest : Bytes} {i : Bool}
    (hscan : scanNumber (t ++ rest) = some (rest, i)) :
    (init (t ++ rest)).parseNumber fp =
      if i then
        (stoll t).elim (.error .numberTooBig (init (t ++ rest))) fun n =>
          .ok (.integer (Int32.ofInt n)) (init rest)
      else
        (fp.read t).elim (.error .numberTooBig (init (t ++ rest))) fun x =>
          .ok (.number x) (init rest) := by
  have htext : (t ++ rest).take ((t ++ rest).length - rest.length) = t := by
    rw [List.length_append, Nat.add_sub_cancel, List.take_left]
  unfold parseNumber init
  dsimp only
  rw [hscan]
  dsimp only
  rw [htext]
  cases stoll t with
  | none =>
    cases fp.read t with
    | none => rfl
    | some x => rfl
  | some n =>
    cases fp.read t with
    | none => rfl
    | some x => rfl

theorem parseNumber_advances (fp : DoubleText δ) (c : LeptContext) :
    (c.parseNumber fp).Advances c.rest.length := by
  unfold parseNumber
  split
  · trivial
  · next tmp isInteger hscan =>
    have hlt := (scanNumber_skips hscan).2
    dsimp only
    split
    · split
      · trivial
      · exact hlt
    · split
      · trivial
      · exact hlt

/-! ### Arrays, objects and values -/

theorem arrayLoop_advances {pv : LeptContext → LeptOutcome (LeptValue δ)} {n : Nat}
    {c : LeptContext}
    (hpv : ∀ c' : LeptContext, c'.rest.length ≤ c.rest.length → (pv c').Advances c'.rest.length)
    (hn : c.rest.length < n) (arr : List (LeptValue δ)) :
    (arrayLoop pv n arr c).Advances c.rest.length := by
  induction n generalizing c arr with
  | zero => exact absurd hn (Nat.not_lt_zero _)
  | succ n ih =>
    rw [arrayLoop]
    refine (hpv c le_rfl).andThen fun e c₁ hlt => ?_
    have hws := parseWhitespace_length_le c₁
    show LeptOutcome.Advances _ (if c₁.parseWhitespace.ch = 0x2C then _ else _)
    split
    · next hcomma =>
      have hnext := next_length_lt hcomma (by decide)
      have hws' := parseWhitespace_length_le c₁.parseWhitespace.next
      refine (ih (fun c' hle => hpv c' (by omega)) (by omega) _).mono (by omega)
    · split
      · next hclose =>
        have hnext := next_length_lt hclose (by decide)
        show c₁.parseWhitespace.next.rest.length < _
        omega
      · trivial

theorem parseArray_advances {pv : LeptContext → LeptOutcome (LeptValue δ)} {c : LeptContext}
    (hpv : ∀ c' : LeptContext, c'.rest.length < c.rest.length → (pv c').Advances c'.rest.length) :
    (c.parseArray pv).Advances c.rest.length := by
  unfold parseArray
  split
  · exact Halt.noConfusion
  · next hopen =>
    have hnext := next_length_lt (of_not_not hopen) (by decide)
    have hws := parseWhitespace_length_le c.next
    dsimp only
    split
    · next hclose =>
      have hnext' := next_length_lt hclose (by decide)
      show c.next.parseWhitespace.next.rest.length < _
      omega
    · exact (arrayLoop_advances (fun c' hle => hpv c' (by omega)) (Nat.lt_succ_self _) []).mono
        (by omega)

theorem objectLoop_advances {pv : LeptContext → LeptOutcome (LeptValue δ)} {n : Nat}
    {c : LeptContext}
    (hpv : ∀ c' : LeptContext, c'.rest.length ≤ c.rest.length → (pv c').Advances c'.rest.length)
    (hn : c.rest.length < n) (mp : List (Bytes × LeptValue δ)) :
    (objectLoop pv n mp c).Advances c.rest.length := by
  induction n generalizing c mp with
  | zero => exact absurd hn (Nat.not_lt_zero _)
  | succ n ih =>
    rw [objectLoop]
    split
    · trivial
    · refine (parseString_advances c).andThen fun key c₁ hkey => ?_
      have hws := parseWhitespace_length_le c₁
      dsimp only
      split
      · trivial
      · next hcolon =>
        have hnext := next_length_lt (of_not_not hcolon) (by decide)
        have hws' := parseWhitespace_length_le c₁.parseWhitespace.next
        refine (hpv c₁.parseWhitespace.next.parseWhitespace (by omega)).andThen fun e c₂ hlt => ?_
        have hws₂ := parseWhitespace_length_le c₂
        split
        · next hclose =>
          have hnext₂ := next_length_lt hclose (by decide)
          show c₂.parseWhitespace.next.rest.length < _
          omega
        · split
          · next hcomma =>
            have hnext₂ := next_length_lt hcomma (by decide)
            have hws₂' := parseWhitespace_length_le c₂.parseWhitespace.next
            exact (ih (fun c' hle => hpv c' (by omega)) (by omega) _).mono (by omega)
          · trivial

theorem parseObject_advances {pv : LeptContext → LeptOutcome (LeptValue δ)} {c : LeptContext}
    (hpv : ∀ c' : LeptContext, c'.rest.length < c.rest.length → (pv c').Advances c'.rest.length) :
    (c.parseObject pv).Advances c.rest.length := by
  unfold parseObject
  split
  · exact Halt.noConfusion
  · next hopen =>
    have hnext := next_length_lt (of_not_not hopen) (by decide)
    have hws := parseWhitespace_length_le c.next
    dsimp only
    split
    · next hclose =>
      have hnext' := next_length_lt hclose (by decide)
      show c.next.parseWhitespace.next.rest.length < _
      omega
    · exact (objectLoop_advances (fun c' hle => hpv c' (by omega)) (Nat.lt_succ_self _) []).mono
        (by omega)

/-- **`parse_value` moves on and comes to an end.**  Each level of nesting takes a character. -/
theorem parseValue_advances (fp : DoubleText δ) {d : Nat} {c : LeptContext}
    (hd : c.rest.length < d) : (c.parseValue fp d).Advances c.rest.length := by
  induction d generalizing c with
  | zero => exact absurd hd (Nat.not_lt_zero _)
  | succ d ih =>
    have hpv : ∀ c' : LeptContext, c'.rest.length < c.rest.length →
        (c'.parseValue fp d).Advances c'.rest.length := fun c' hlt => ih (by omega)
    rw [parseValue]
    split
    · exact parseLiteral_advances (by decide) _ c
    split
    · exact parseLiteral_advances (by decide) _ c
    split
    · exact parseLiteral_advances (by decide) _ c
    split
    · trivial
    split
    · exact (parseString_advances c).andThen fun s c' hlt => hlt
    split
    · exact parseArray_advances hpv
    split
    · exact parseObject_advances hpv
    · exact parseNumber_advances fp c

end LeptContext

/-- **`lept_value::parse` comes to an end.** -/
theorem LeptValue.parse_ne_fuel {δ : Type} (fp : DoubleText δ) (json : Bytes) :
    LeptValue.parse fp json ≠ .error .fuel := by
  have hws : (LeptContext.init (json ++ [0])).parseWhitespace.rest.length ≤ json.length + 1 :=
    le_of_le_of_eq (LeptContext.parseWhitespace_length_le _) (List.length_append ..)
  have hadv := LeptContext.parseValue_advances fp (d := json.length + 2) (Nat.lt_succ_of_le hws)
  unfold LeptValue.parse
  dsimp only
  split
  · split <;> simp
  · split <;> simp
  · next h hr =>
    rw [hr] at hadv
    intro heq
    exact hadv (Except.error.inj heq)

end MyWebSocket
