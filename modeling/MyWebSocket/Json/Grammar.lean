import MyWebSocket.Json.RoundTrip
import MyWebSocket.Library.JsonGrammar

namespace MyWebSocket

/-!
# The parser and the grammar of RFC 8259

The parser lets letters up to `Z` through in `\u` escapes, and does not look at what follows a
value.  Apart from that it reads the grammar.

* `gram_of_reads` — what is read with hexadecimal digits only is in the grammar;
* `reads_of_gram` — of a text of the grammar the parser reads all or nothing, and with hexadecimal
  digits only;
* `document_iff` — so a payload that is read is a document if and only if it was read that way and
  nothing but white space is left.
-/

open JsonGrammar (Chars Digits Document Exp Frac Gram IntPart IsHexDigit Number)
open JsonText (Space quoted)

variable {δ : Type} {good : Bytes → Prop}

/-! ### Strings -/

/-- The digits of a `\u` escape are hexadecimal, if the text begins with one. -/
def HexUnit (tmp : Bytes) : Prop :=
  tmp.take 2 = [0x5C, 0x75] → ∀ b ∈ (tmp.drop 2).take 4, IsHexDigit b

/-- So are those of the second escape, if one follows at once: it may be the second half of a
    surrogate pair. -/
def HexRound (tmp : Bytes) : Prop :=
  HexUnit tmp ∧ (tmp.take 2 = [0x5C, 0x75] → HexUnit (tmp.drop 6))

theorem mem_shortEscapes {e b : UInt8} (h : simpleEscape e = some b) :
    (e, b) ∈ JsonText.shortEscapes := by
  unfold simpleEscape at h
  split at h
  · next he =>
    obtain rfl := Option.some.inj h
    rcases he with rfl | rfl | rfl
    · decide
    · decide
    · decide
  split at h
  · next he =>
    obtain rfl := Option.some.inj h
    exact he ▸ by decide
  split at h
  · next he =>
    obtain rfl := Option.some.inj h
    exact he ▸ by decide
  split at h
  · next he =>
    obtain rfl := Option.some.inj h
    exact he ▸ by decide
  split at h
  · next he =>
    obtain rfl := Option.some.inj h
    exact he ▸ by decide
  split at h
  · next he =>
    obtain rfl := Option.some.inj h
    exact he ▸ by decide
  · exact absurd h (by simp)

theorem simpleEscape_of_mem {e b : UInt8} (h : (e, b) ∈ JsonText.shortEscapes) :
    simpleEscape e = some b ∧ e ≠ 0x75 := by
  simp only [JsonText.shortEscapes, List.mem_cons, Prod.mk.injEq, List.not_mem_nil,
    or_false] at h
  rcases h with ⟨rfl, rfl⟩ | ⟨rfl, rfl⟩ | ⟨rfl, rfl⟩ | ⟨rfl, rfl⟩ | ⟨rfl, rfl⟩ | ⟨rfl, rfl⟩ |
    ⟨rfl, rfl⟩ | ⟨rfl, rfl⟩ <;> decide

theorem hexUnit_unit {ds : Bytes} (hlength : ds.length = 4) (tmp : Bytes) :
    HexUnit (0x5C :: 0x75 :: (ds ++ tmp)) ↔ ∀ b ∈ ds, IsHexDigit b := by
  have htake : (ds ++ tmp).take 4 = ds := hlength ▸ List.take_left
  constructor
  · intro h
    have hds := h rfl
    rwa [List.drop_succ_cons, List.drop_succ_cons, List.drop_zero, htake] at hds
  · intro h _
    rwa [List.drop_succ_cons, List.drop_succ_cons, List.drop_zero, htake]

theorem drop_unit {ds : Bytes} (hlength : ds.length = 4) (tmp : Bytes) :
    (0x5C :: 0x75 :: (ds ++ tmp)).drop 6 = tmp := by
  rw [List.drop_succ_cons, List.drop_succ_cons, ← hlength, List.drop_left]

/-- **What a round reads, if it reads hexadecimal digits only**: a byte that stands for itself, an
    escape of one character, or one or two escapes with four digits. -/
theorem hexRound_cases {tmp bs rest : Bytes} (h : stringRound tmp = .push bs rest)
    (hhex : HexRound tmp) :
    (∃ b, tmp = b :: rest ∧ bs = [b] ∧ IsRaw b) ∨
      (∃ e b, tmp = 0x5C :: e :: rest ∧ bs = [b] ∧ (e, b) ∈ JsonText.shortEscapes) ∨
      (∃ ds u, tmp = 0x5C :: 0x75 :: (ds ++ rest) ∧ ds.length = 4 ∧ (∀ b ∈ ds, IsHexDigit b) ∧
        parseHex4 (ds ++ rest) = some (u, rest) ∧ ¬ (0xD800 ≤ u ∧ u ≤ 0xDBFF) ∧
          encodeUtf8 u = some bs) ∨
      ∃ ds es u u2, tmp = 0x5C :: 0x75 :: (ds ++ 0x5C :: 0x75 :: (es ++ rest)) ∧
        (ds.length = 4 ∧ ∀ b ∈ ds, IsHexDigit b) ∧ (es.length = 4 ∧ ∀ b ∈ es, IsHexDigit b) ∧
          parseHex4 (ds ++ 0x5C :: 0x75 :: (es ++ rest)) =
              some (u, 0x5C :: 0x75 :: (es ++ rest)) ∧
            parseHex4 (es ++ rest) = some (u2, rest) ∧ (0xD800 ≤ u ∧ u ≤ 0xDBFF) ∧
              (0xDC00 ≤ u2 ∧ u2 ≤ 0xDFFF) ∧
                encodeUtf8 ((((u - 0xD800) <<< 10) ||| (u2 - 0xDC00)) + 0x10000) = some bs := by
  obtain ⟨hunit, hpair⟩ := hhex
  rcases tmp with _ | ⟨ch, tmp⟩
  · exact absurd h (by simp [stringRound_nil])
  rcases stringRound_cases ch tmp with ⟨-, hr⟩ | ⟨rfl, hr⟩ | ⟨-, ret, hr⟩ | ⟨hraw, hr⟩
  · exact absurd (hr.symm.trans h) (by simp)
  · rw [hr] at h
    rcases escapeRound_push_cases h with ⟨e, b, rfl, he, rfl⟩ | ⟨tmp, rfl, h⟩
    · exact .inr (.inl ⟨e, b, rfl, rfl, mem_shortEscapes he⟩)
    obtain ⟨u, tmp₁, hu, ⟨hhigh, rfl, hbs⟩ | ⟨hhigh, u2, tmp₂, rfl, hu2, hlow, hbs⟩⟩ :=
      unicodeRound_push_cases h
    · obtain ⟨ds, rfl, hlength, -⟩ := hex4Loop_eq_some hu
      have hds := (hexUnit_unit hlength _).mp hunit
      exact .inr (.inr (.inl ⟨ds, u, rfl, hlength, hds, hu, hhigh, hbs⟩))
    · obtain ⟨ds, rfl, hlength, -⟩ := hex4Loop_eq_some hu
      obtain ⟨es, rfl, hlength', -⟩ := hex4Loop_eq_some hu2
      have hds := (hexUnit_unit hlength _).mp hunit
      have hes := hpair rfl
      rw [drop_unit hlength, hexUnit_unit hlength'] at hes
      exact .inr (.inr (.inr ⟨ds, es, u, u2, rfl, ⟨hlength, hds⟩, ⟨hlength', hes⟩, hu, hu2, hhigh,
        hlow, hbs⟩))
  · exact absurd (hr.symm.trans h) (by simp)
  · obtain ⟨rfl, rfl⟩ := StringRound.push.inj (hr.symm.trans h)
    exact .inl ⟨ch, rfl, rfl, hraw⟩

theorem chars_of_round {tmp bs rest : Bytes} (h : stringRound tmp = .push bs rest)
    (hhex : HexRound tmp) : ∃ x, tmp = x ++ rest ∧ ∀ t, Chars t → Chars (x ++ t) := by
  rcases hexRound_cases h hhex with ⟨b, rfl, -, hquote, hslash, hcontrol⟩ | ⟨e, b, rfl, -, he⟩ |
    ⟨ds, u, rfl, hlength, hds, -⟩ | ⟨ds, es, u, u2, rfl, ⟨hlength, hds⟩, ⟨hlength', hes⟩, -⟩
  · exact ⟨[b], rfl, fun t => .unescaped hquote hslash hcontrol⟩
  · exact ⟨[0x5C, e], rfl, fun t => .short he⟩
  · exact ⟨0x5C :: 0x75 :: ds, rfl, fun t => .unit hlength hds⟩
  · refine ⟨0x5C :: 0x75 :: (ds ++ 0x5C :: 0x75 :: es), by simp, fun t ht => ?_⟩
    have htext : 0x5C :: 0x75 :: (ds ++ 0x5C :: 0x75 :: es) ++ t =
        0x5C :: 0x75 :: (ds ++ 0x5C :: 0x75 :: (es ++ t)) := by simp
    rw [htext]
    exact .unit hlength hds (.unit hlength' hes ht)

/-- A backslash and a `u` begin an escape with four digits. -/
theorem chars_unit {t r : Bytes} (ht : Chars t) (h : (t ++ 0x22 :: r).take 2 = [0x5C, 0x75]) :
    ∃ ds t', t = 0x5C :: 0x75 :: (ds ++ t') ∧ ds.length = 4 ∧ (∀ b ∈ ds, IsHexDigit b) ∧
      Chars t' := by
  cases ht with
  | nil => exact absurd (List.cons.inj h).1 (by decide)
  | unescaped _ hslash _ _ => exact absurd (List.cons.inj h).1 hslash
  | short he _ => exact absurd (List.cons.inj (List.cons.inj h).2).1 (simpleEscape_of_mem he).2
  | @unit ds t hlength hds ht => exact ⟨ds, t, rfl, hlength, hds, ht⟩

theorem hexUnit_of_chars {t : Bytes} (ht : Chars t) (r : Bytes) : HexUnit (t ++ 0x22 :: r) := by
  intro htake
  obtain ⟨ds, t, rfl, hlength, hds, -⟩ := chars_unit ht htake
  rw [List.cons_append, List.cons_append, List.append_assoc] at htake ⊢
  exact (hexUnit_unit hlength _).mpr hds htake

theorem hexRound_of_chars {t : Bytes} (ht : Chars t) (r : Bytes) : HexRound (t ++ 0x22 :: r) := by
  refine ⟨hexUnit_of_chars ht r, fun htake => ?_⟩
  obtain ⟨ds, t, rfl, hlength, -, ht⟩ := chars_unit ht htake
  rw [List.cons_append, List.cons_append, List.append_assoc, drop_unit hlength]
  exact hexUnit_of_chars ht r

/-- What a round reads of a text of the grammar. -/
theorem round_of_chars {t r bs rest : Bytes} (ht : Chars t)
    (h : stringRound (t ++ 0x22 :: r) = .push bs rest) :
    ∃ t', rest = t' ++ 0x22 :: r ∧ Chars t' := by
  cases ht with
  | nil => exact absurd h (by simp [stringRound_quote])
  | @unescaped b t hquote hslash hcontrol ht =>
    rw [List.cons_append, stringRound_raw ⟨hquote, hslash, hcontrol⟩] at h
    exact ⟨t, (StringRound.push.inj h).2.symm, ht⟩
  | @short e b t he ht =>
    obtain ⟨hescape, hu⟩ := simpleEscape_of_mem he
    rw [List.cons_append, List.cons_append, stringRound_backslash, escapeRound, List.headD_cons,
      hescape] at h
    exact ⟨t, (StringRound.push.inj h).2.symm, ht⟩
  | @unit ds t hlength hds ht =>
    rw [List.cons_append, List.cons_append, List.append_assoc] at h
    obtain ⟨u, tmp₁, hu, hrest⟩ := unicodeRound_push_cases (show unicodeRound _ = _ from h)
    obtain ⟨ds', heq, hlength', -⟩ := hex4Loop_eq_some hu
    obtain ⟨-, rfl⟩ := List.append_inj heq (hlength.trans hlength'.symm)
    rcases hrest with ⟨-, rfl, -⟩ | ⟨-, u2, tmp₂, heq₂, hu2, -⟩
    · exact ⟨t, rfl, ht⟩
    · -- the second half of a surrogate pair
      obtain ⟨es, t, rfl, hlength₂, -, ht⟩ := chars_unit ht (by rw [heq₂]; rfl)
      obtain ⟨es', rfl, hlength₂', -⟩ := hex4Loop_eq_some hu2
      rw [List.cons_append, List.cons_append, List.append_assoc] at heq₂
      obtain ⟨-, rfl⟩ := List.append_inj (List.cons.inj (List.cons.inj heq₂).2).2
        (hlength₂.trans hlength₂'.symm)
      exact ⟨t, rfl, ht⟩

theorem chars_of_readsString {tmp s rest : Bytes} (h : ReadsString HexRound tmp s rest) :
    ∃ t, tmp = t ++ 0x22 :: rest ∧ Chars t := by
  induction h with
  | close rest => exact ⟨[], rfl, .nil⟩
  | push h hhex _ ih =>
    obtain ⟨x, rfl, hx⟩ := chars_of_round h hhex
    obtain ⟨t, rfl, ht⟩ := ih
    exact ⟨x ++ t, (List.append_assoc ..).symm, hx t ht⟩

/-- Only a closing quotation mark ends a text of the grammar. -/
theorem chars_append_ne {t r rest : Bytes} (ht : Chars t) (h : t ++ 0x22 :: r = 0x22 :: rest) :
    r = rest := by
  cases ht with
  | nil => exact (List.cons.inj h).2
  | unescaped hquote _ _ _ => exact absurd (List.cons.inj h).1 hquote
  | short _ _ => exact absurd (List.cons.inj h).1 (by decide)
  | unit _ _ _ => exact absurd (List.cons.inj h).1 (by decide)

theorem readsString_of_chars {tmp s rest : Bytes} (h : ReadsString good tmp s rest) {t r : Bytes}
    (htmp : tmp = t ++ 0x22 :: r) (ht : Chars t) : rest = r ∧ ReadsString HexRound tmp s rest := by
  induction h generalizing t with
  | close rest => exact ⟨(chars_append_ne ht htmp.symm).symm, .close rest⟩
  | push h _ _ ih =>
    subst htmp
    obtain ⟨t', htmp', ht'⟩ := round_of_chars ht h
    obtain ⟨hrest, hs⟩ := ih htmp' ht'
    exact ⟨hrest, .push h (hexRound_of_chars ht r) hs⟩

/-! ### Numbers -/

theorem isDigit1to9_iff (b : UInt8) :
    LeptContext.isDigit1to9 b = true ↔ LeptContext.isDigit b = true ∧ b ≠ 0x30 := by
  simp only [LeptContext.isDigit1to9, LeptContext.isDigit, Bool.and_eq_true, decide_eq_true_eq,
    UInt8.le_iff_toNat_le, ne_eq, ← UInt8.toNat_inj, UInt8.reduceToNat]
  omega

theorem digits_of_scanDigits {tmp rest : Bytes} (h : LeptContext.scanDigits tmp = some rest) :
    ∃ ds, tmp = ds ++ rest ∧ Digits ds := by
  unfold LeptContext.scanDigits at h
  split at h
  · next hd =>
    obtain rfl := Option.some.inj h
    have hne : tmp.headD 0 ≠ 0 := ne_of_class hd (by decide)
    refine ⟨tmp.headD 0 :: tmp.tail.takeWhile LeptContext.isDigit, ?_, List.cons_ne_nil _ _, ?_⟩
    · rw [List.cons_append, List.takeWhile_append_dropWhile]
      exact LeptContext.cons_of_ch rfl hne
    · exact List.forall_mem_cons.mpr ⟨hd, fun b hb => List.mem_takeWhile_imp hb⟩
  · exact absurd h (by simp)

theorem scanDigits_of_digits {ds r : Bytes} (hds : Digits ds)
    (hr : LeptContext.isDigit (r.headD 0) = false) :
    LeptContext.scanDigits (ds ++ r) = some r := by
  obtain ⟨hne, hall⟩ := hds
  obtain ⟨d, ds, rfl⟩ := List.exists_cons_of_ne_nil hne
  obtain ⟨hd, hds⟩ := List.forall_mem_cons.mp hall
  have hdigit : LeptContext.isDigit d = true := hd
  rw [LeptContext.scanDigits, List.cons_append, List.headD_cons, if_pos hdigit, List.tail_cons,
    dropWhile_isDigit (List.all_eq_true.mpr hds) hr]

theorem intPart_of_scanInt {tmp rest : Bytes} (h : LeptContext.scanInt tmp = some rest) :
    ∃ ds, tmp = ds ++ rest ∧ IntPart ds := by
  unfold LeptContext.scanInt at h
  split at h
  · next hzero =>
    obtain rfl := Option.some.inj h
    exact ⟨[0x30], LeptContext.cons_of_ch hzero (by decide), .zero⟩
  split at h
  · next hd =>
    obtain rfl := Option.some.inj h
    obtain ⟨hdigit, hzero⟩ := (isDigit1to9_iff _).mp hd
    have hne : tmp.headD 0 ≠ 0 := ne_of_class hdigit (by decide)
    refine ⟨tmp.headD 0 :: tmp.tail.takeWhile LeptContext.isDigit, ?_,
      .digits hdigit hzero fun b hb => List.mem_takeWhile_imp hb⟩
    rw [List.cons_append, List.takeWhile_append_dropWhile]
    exact LeptContext.cons_of_ch rfl hne
  · exact absurd h (by simp)

theorem scanInt_of_intPart {ds r : Bytes} (hds : IntPart ds)
    (hr : LeptContext.isDigit (r.headD 0) = false) : LeptContext.scanInt (ds ++ r) = some r := by
  cases hds with
  | zero => rfl
  | @digits d ds hd hzero hds =>
    rw [LeptContext.scanInt, List.cons_append, List.headD_cons, if_neg hzero,
      if_pos ((isDigit1to9_iff d).mpr ⟨hd, hzero⟩), List.tail_cons,
      dropWhile_isDigit (List.all_eq_true.mpr hds) hr]

theorem frac_of_scanFrac {tmp rest : Bytes} {i : Bool}
    (h : LeptContext.scanFrac tmp = some (rest, i)) :
    ∃ t, tmp = t ++ rest ∧ Frac t ∧ i = t.isEmpty := by
  unfold LeptContext.scanFrac at h
  split at h
  · next hdot =>
    obtain ⟨rest', hscan, heq⟩ := Option.map_eq_some_iff.mp h
    obtain ⟨rfl, rfl⟩ := Prod.mk.inj heq
    obtain ⟨ds, htail, hds⟩ := digits_of_scanDigits hscan
    refine ⟨0x2E :: ds, ?_, .some hds, rfl⟩
    rw [List.cons_append, ← htail]
    exact LeptContext.cons_of_ch hdot (by decide)
  · obtain ⟨rfl, rfl⟩ := Prod.mk.inj (Option.some.inj h)
    exact ⟨[], rfl, .none, rfl⟩

theorem scanFrac_of_frac {t r : Bytes} (ht : Frac t)
    (hr : LeptContext.isDigit (r.headD 0) = false ∧ r.headD 0 ≠ 0x2E) :
    LeptContext.scanFrac (t ++ r) = some (r, t.isEmpty) := by
  cases ht with
  | none => exact if_neg hr.2
  | @some ds hds =>
    rw [LeptContext.scanFrac, List.cons_append, List.headD_cons, if_pos rfl, List.tail_cons,
      scanDigits_of_digits hds hr.1]
    rfl

theorem exp_of_scanExp {tmp rest : Bytes} {i i' : Bool}
    (h : LeptContext.scanExp tmp i = some (rest, i')) :
    ∃ t, tmp = t ++ rest ∧ Exp t ∧ i' = (i && t.isEmpty) := by
  unfold LeptContext.scanExp at h
  split at h
  · next he =>
    obtain ⟨rest', hscan, heq⟩ := Option.map_eq_some_iff.mp h
    obtain ⟨rfl, rfl⟩ := Prod.mk.inj heq
    obtain ⟨ds, htail, hds⟩ := digits_of_scanDigits hscan
    have hcons : tmp = tmp.headD 0 :: tmp.tail := by
      rcases he with he | he
      · rw [he]
        exact LeptContext.cons_of_ch he (by decide)
      · rw [he]
        exact LeptContext.cons_of_ch he (by decide)
    split at htail
    · next hsign =>
      -- the sign is a character of its own
      refine ⟨tmp.headD 0 :: ([tmp.tail.headD 0] ++ ds), ?_, .some he ?_ hds,
        (Bool.and_false i).symm⟩
      · have hsigned : tmp.tail = tmp.tail.headD 0 :: tmp.tail.tail := by
          rcases hsign with hsign | hsign
          · rw [hsign]
            exact LeptContext.cons_of_ch hsign (by decide)
          · rw [hsign]
            exact LeptContext.cons_of_ch hsign (by decide)
        rw [List.cons_append, List.append_assoc, ← htail, List.singleton_append, ← hsigned]
        exact hcons
      · rcases hsign with hsign | hsign
        · exact .inr (.inl (congrArg (fun b => [b]) hsign))
        · exact .inr (.inr (congrArg (fun b => [b]) hsign))
    · refine ⟨tmp.headD 0 :: ([] ++ ds), ?_, .some he (.inl rfl) hds, (Bool.and_false i).symm⟩
      rw [List.nil_append, List.cons_append, ← htail]
      exact hcons
  · obtain ⟨rfl, rfl⟩ := Prod.mk.inj (Option.some.inj h)
    exact ⟨[], rfl, .none, (Bool.and_true i).symm⟩

theorem scanExp_of_exp {t r : Bytes} (ht : Exp t) (hr : EndsNumber r) (i : Bool) :
    LeptContext.scanExp (t ++ r) i = some (r, i && t.isEmpty) := by
  obtain ⟨hdigit, -, hlower, hupper⟩ := hr
  cases ht with
  | none =>
    rw [List.isEmpty_nil, Bool.and_true]
    exact if_neg (not_or.mpr ⟨hlower, hupper⟩)
  | @some e sign ds he hsign hds =>
    have hscan := scanDigits_of_digits hds hdigit
    have hskip : (if (sign ++ (ds ++ r)).headD 0 = 0x2B ∨ (sign ++ (ds ++ r)).headD 0 = 0x2D then
        (sign ++ (ds ++ r)).tail else sign ++ (ds ++ r)) = ds ++ r := by
      rcases hsign with rfl | rfl | rfl
      · obtain ⟨d, ds, rfl⟩ := List.exists_cons_of_ne_nil hds.1
        have hd := hds.2 d List.mem_cons_self
        exact if_neg (not_or.mpr ⟨ne_of_class hd (by decide), ne_of_class hd (by decide)⟩)
      · exact if_pos (.inl rfl)
      · exact if_pos (.inr rfl)
    rw [LeptContext.scanExp, List.cons_append, List.headD_cons, if_pos he, List.tail_cons,
      List.append_assoc]
    dsimp only
    rw [hskip, hscan, List.isEmpty_cons, Bool.and_false]
    rfl

/-- **What `parse_number` reads is a number**, and an integer if it has only an integer part. -/
theorem parts_of_scanNumber {tmp rest : Bytes} {i : Bool}
    (h : LeptContext.scanNumber tmp = some (rest, i)) :
    ∃ minus int frac exp, tmp = minus ++ (int ++ (frac ++ exp)) ++ rest ∧
      (minus = [] ∨ minus = [0x2D]) ∧ IntPart int ∧ Frac frac ∧ Exp exp ∧
        i = (frac.isEmpty && exp.isEmpty) := by
  unfold LeptContext.scanNumber at h
  obtain ⟨tmp₁, hscan, h⟩ := Option.bind_eq_some_iff.mp h
  obtain ⟨⟨tmp₂, i₂⟩, hscanFrac, hscanExp⟩ := Option.bind_eq_some_iff.mp h
  obtain ⟨int, hsign, hint⟩ := intPart_of_scanInt hscan
  obtain ⟨frac, rfl, hfrac, rfl⟩ := frac_of_scanFrac hscanFrac
  obtain ⟨exp, rfl, hexp, rfl⟩ := exp_of_scanExp hscanExp
  split at hsign
  · next hminus =>
    refine ⟨[0x2D], int, frac, exp, ?_, .inr rfl, hint, hfrac, hexp, rfl⟩
    rw [List.append_assoc, List.append_assoc, List.append_assoc, ← hsign]
    exact LeptContext.cons_of_ch hminus (by decide)
  · refine ⟨[], int, frac, exp, ?_, .inl rfl, hint, hfrac, hexp, rfl⟩
    rw [hsign, List.nil_append, List.append_assoc, List.append_assoc]

theorem number_of_scanNumber {tmp rest : Bytes} {i : Bool}
    (h : LeptContext.scanNumber tmp = some (rest, i)) : ∃ t, tmp = t ++ rest ∧ Number t := by
  obtain ⟨minus, int, frac, exp, htmp, hminus, hint, hfrac, hexp, -⟩ := parts_of_scanNumber h
  exact ⟨_, htmp, .parts hminus hint hfrac hexp⟩

/-- Where the text of a fraction or an exponent begins, or what follows it. -/
theorem headD_frac {t r : Bytes} (ht : Frac t) (hr : LeptContext.isDigit (r.headD 0) = false) :
    LeptContext.isDigit ((t ++ r).headD 0) = false := by
  cases ht with
  | none => exact hr
  | some hds => exact (by decide : LeptContext.isDigit 0x2E = false)

@[inherit_doc headD_frac]
theorem headD_exp {t r : Bytes} (ht : Exp t)
    (hr : LeptContext.isDigit (r.headD 0) = false ∧ r.headD 0 ≠ 0x2E) :
    LeptContext.isDigit ((t ++ r).headD 0) = false ∧ (t ++ r).headD 0 ≠ 0x2E := by
  cases ht with
  | none => exact hr
  | @some e sign ds he hsign hds =>
    show LeptContext.isDigit e = false ∧ e ≠ 0x2E
    rcases he with rfl | rfl
    · decide
    · decide

/-- **Of a number it reads all**, when what follows does not go on with it. -/
theorem scanNumber_of_parts {minus int frac exp r : Bytes} (hminus : minus = [] ∨ minus = [0x2D])
    (hint : IntPart int) (hfrac : Frac frac) (hexp : Exp exp) (hr : EndsNumber r) :
    LeptContext.scanNumber (minus ++ (int ++ (frac ++ exp)) ++ r) =
      some (r, frac.isEmpty && exp.isEmpty) := by
  have hexpHead := headD_exp hexp ⟨hr.1, hr.2.1⟩
  have hfracHead := headD_frac hfrac hexpHead.1
  have hscanFrac := scanFrac_of_frac hfrac hexpHead
  have hscanExp := scanExp_of_exp hexp hr frac.isEmpty
  have hscanInt := scanInt_of_intPart hint hfracHead
  have hskip : (if (minus ++ (int ++ (frac ++ (exp ++ r)))).headD 0 = 0x2D then
      (minus ++ (int ++ (frac ++ (exp ++ r)))).tail
      else minus ++ (int ++ (frac ++ (exp ++ r)))) = int ++ (frac ++ (exp ++ r)) := by
    rcases hminus with rfl | rfl
    · apply if_neg
      cases hint with
      | zero => exact (by decide : (0x30 : UInt8) ≠ 0x2D)
      | digits hd _ _ => exact ne_of_class hd (by decide)
    · exact if_pos rfl
  rw [List.append_assoc, List.append_assoc, List.append_assoc, LeptContext.scanNumber, hskip,
    hscanInt, Option.bind_some, hscanFrac, Option.bind_some, hscanExp]

theorem scanNumber_of_number {t r : Bytes} (ht : Number t) (hr : EndsNumber r) :
    ∃ i, LeptContext.scanNumber (t ++ r) = some (r, i) := by
  obtain ⟨hminus, hint, hfrac, hexp⟩ := ht
  exact ⟨_, scanNumber_of_parts hminus hint hfrac hexp hr⟩

/-! ### Values -/

theorem space_of_skipSpace {tmp tmp' : Bytes} (h : skipSpace tmp = tmp') :
    ∃ w, Space w ∧ tmp = w ++ tmp' :=
  ⟨tmp.takeWhile LeptContext.isWhitespace, fun _ hb => List.mem_takeWhile_imp hb,
    h ▸ List.takeWhile_append_dropWhile.symm⟩

theorem skipSpace_append {w tmp : Bytes} (hw : Space w)
    (htmp : LeptContext.isWhitespace (tmp.headD 0) = false) : skipSpace (w ++ tmp) = tmp := by
  have hspace : ∀ b ∈ w, LeptContext.isWhitespace b = true := hw
  rw [skipSpace, List.dropWhile_append_of_pos hspace]
  exact skipSpace_self htmp

/-- What a part of the text is in the grammar, and what stands between it and what is left. -/
def JsonPart.Takes : JsonPart δ → Bytes → Bytes → Prop
  | .value _, tmp, rest => ∃ t, Gram .value t ∧ tmp = t ++ rest
  | .elements _, tmp, rest => ∃ t w, Gram .elements t ∧ Space w ∧ tmp = t ++ (w ++ 0x5D :: rest)
  | .entries _, tmp, rest => ∃ t w, Gram .members t ∧ Space w ∧ tmp = t ++ (w ++ 0x7D :: rest)

/-- **What is read with hexadecimal digits only is in the grammar.** -/
theorem gram_of_reads {fp : DoubleText δ} {tmp rest : Bytes} {p : JsonPart δ}
    (h : JsonReads HexRound fp tmp p rest) : p.Takes tmp rest := by
  induction h with
  | true rest => exact ⟨_, .true, rfl⟩
  | false rest => exact ⟨_, .false, rfl⟩
  | null rest => exact ⟨_, .null, rfl⟩
  | @number tmp rest v h =>
    obtain ⟨i, hscan⟩ := LeptContext.scanNumber_of_parseNumber h
    obtain ⟨t, rfl, ht⟩ := number_of_scanNumber hscan
    exact ⟨t, .number ht, rfl⟩
  | @string tmp s rest h =>
    obtain ⟨t, rfl, ht⟩ := chars_of_readsString h
    exact ⟨quoted t, .string ht, by simp [quoted]⟩
  | @emptyArray tmp rest h =>
    obtain ⟨w, hw, rfl⟩ := space_of_skipSpace h
    exact ⟨0x5B :: (w ++ [0x5D]), .emptyArray hw, by simp⟩
  | @array tmp rest vs h ih =>
    obtain ⟨t, w', ht, hw', htmp⟩ := ih
    obtain ⟨w, hw, rfl⟩ := space_of_skipSpace htmp
    exact ⟨_, .array hw ht hw', by simp⟩
  | @emptyObject tmp rest h =>
    obtain ⟨w, hw, rfl⟩ := space_of_skipSpace h
    exact ⟨0x7B :: (w ++ [0x7D]), .emptyObject hw, by simp⟩
  | @object tmp rest ms h ih =>
    obtain ⟨t, w', ht, hw', htmp⟩ := ih
    obtain ⟨w, hw, rfl⟩ := space_of_skipSpace htmp
    exact ⟨_, .object hw ht hw', by simp⟩
  | @lastElement tmp tmp₁ rest v h hclose ih =>
    obtain ⟨t, ht, rfl⟩ := ih
    obtain ⟨w, hw, rfl⟩ := space_of_skipSpace hclose
    exact ⟨t, w, .lastElement ht, hw, rfl⟩
  | @element tmp tmp₁ tmp₂ rest v vs h hcomma hrest ih ihrest =>
    obtain ⟨t, ht, rfl⟩ := ih
    obtain ⟨w, hw, rfl⟩ := space_of_skipSpace hcomma
    obtain ⟨ts, w₁, hts, hw₁, htmp₂⟩ := ihrest
    obtain ⟨w', hw', rfl⟩ := space_of_skipSpace htmp₂
    exact ⟨_, w₁, .element ht hw hw' hts, hw₁, by simp⟩
  | @lastEntry tmp tmp₁ tmp₂ tmp₃ k rest v hkey hcolon h hclose ih =>
    obtain ⟨kt, rfl, hk⟩ := chars_of_readsString hkey
    obtain ⟨w, hw, rfl⟩ := space_of_skipSpace hcolon
    obtain ⟨t, ht, htmp₂⟩ := ih
    obtain ⟨w', hw', rfl⟩ := space_of_skipSpace htmp₂
    obtain ⟨w₁, hw₁, rfl⟩ := space_of_skipSpace hclose
    exact ⟨_, w₁, .lastMember hk hw hw' ht, hw₁, by simp [quoted]⟩
  | @entry tmp tmp₁ tmp₂ tmp₃ tmp₄ k rest v ms hkey hcolon h hcomma hrest ih ihrest =>
    obtain ⟨kt, rfl, hk⟩ := chars_of_readsString hkey
    obtain ⟨w, hw, rfl⟩ := space_of_skipSpace hcolon
    obtain ⟨t, ht, htmp₂⟩ := ih
    obtain ⟨w', hw', rfl⟩ := space_of_skipSpace htmp₂
    obtain ⟨w₁, hw₁, rfl⟩ := space_of_skipSpace hcomma
    obtain ⟨ts, w₃, hts, hw₃, htmp₄⟩ := ihrest
    obtain ⟨w₂, hw₂, rfl⟩ := space_of_skipSpace htmp₄
    exact ⟨_, w₃, .member hk hw hw' ht hw₁ hw₂ hts, hw₃, by simp [quoted]⟩

/-- What a value is that begins with `b`. -/
theorem value_inv {fp : DoubleText δ} {b : UInt8} {tmp rest : Bytes} {v : LeptValue δ}
    (h : JsonReads good fp (b :: tmp) (.value v) rest) :
    (b = 0x74 ∨ b = 0x66 ∨ b = 0x6E) ∨
      (LeptContext.init (b :: tmp)).parseNumber fp = .ok v (.init rest) ∨
      (b = 0x22 ∧ ∃ s, v = .string s ∧ ReadsString good tmp s rest) ∨
      (b = 0x5B ∧ (v = .array [] ∧ skipSpace tmp = 0x5D :: rest ∨
        ∃ vs, v = .array vs ∧ JsonReads good fp (skipSpace tmp) (.elements vs) rest)) ∨
      (b = 0x7B ∧ (v = .object [] ∧ skipSpace tmp = 0x7D :: rest ∨
        ∃ ms, v = objectOf ms ∧ JsonReads good fp (skipSpace tmp) (.entries ms) rest)) := by
  generalize htmp : b :: tmp = tmp₀ at h ⊢
  generalize hp : JsonPart.value v = p at h
  cases h with
  | true rest => exact .inl (.inl (List.cons.inj htmp).1)
  | false rest => exact .inl (.inr (.inl (List.cons.inj htmp).1))
  | null rest => exact .inl (.inr (.inr (List.cons.inj htmp).1))
  | number h =>
    obtain rfl := JsonPart.value.inj hp
    exact .inr (.inl h)
  | @string tmp' s rest h =>
    obtain ⟨rfl, rfl⟩ := List.cons.inj htmp
    exact .inr (.inr (.inl ⟨rfl, s, JsonPart.value.inj hp, h⟩))
  | @emptyArray tmp' rest h =>
    obtain ⟨rfl, rfl⟩ := List.cons.inj htmp
    exact .inr (.inr (.inr (.inl ⟨rfl, .inl ⟨JsonPart.value.inj hp, h⟩⟩)))
  | @array tmp' rest vs h =>
    obtain ⟨rfl, rfl⟩ := List.cons.inj htmp
    exact .inr (.inr (.inr (.inl ⟨rfl, .inr ⟨vs, JsonPart.value.inj hp, h⟩⟩)))
  | @emptyObject tmp' rest h =>
    obtain ⟨rfl, rfl⟩ := List.cons.inj htmp
    exact .inr (.inr (.inr (.inr ⟨rfl, .inl ⟨JsonPart.value.inj hp, h⟩⟩)))
  | @object tmp' rest ms h =>
    obtain ⟨rfl, rfl⟩ := List.cons.inj htmp
    exact .inr (.inr (.inr (.inr ⟨rfl, .inr ⟨ms, JsonPart.value.inj hp, h⟩⟩)))
  | lastElement h hclose => cases hp
  | element h hcomma hrest => cases hp
  | lastEntry hkey hcolon h hclose => cases hp
  | entry hkey hcolon h hcomma hrest => cases hp

theorem not_number_ch {b : UInt8} (hdigit : LeptContext.isDigit b = false) (hminus : b ≠ 0x2D)
    {tmp : Bytes} : ¬ (LeptContext.isDigit (LeptContext.init (b :: tmp)).ch = true ∨
      (LeptContext.init (b :: tmp)).ch = 0x2D) :=
  not_or.mpr ⟨Bool.eq_false_iff.mp hdigit, hminus⟩

theorem string_inv {fp : DoubleText δ} {tmp rest : Bytes} {v : LeptValue δ}
    (h : JsonReads good fp (0x22 :: tmp) (.value v) rest) :
    ∃ s, v = .string s ∧ ReadsString good tmp s rest := by
  rcases value_inv h with hch | hnumber | ⟨-, h⟩ | ⟨hch, -⟩ | ⟨hch, -⟩
  · exact absurd hch (by decide)
  · exact absurd (LeptContext.number_ch hnumber) (not_number_ch (by decide) (by decide))
  · exact h
  · exact absurd hch (by decide)
  · exact absurd hch (by decide)

theorem array_inv {fp : DoubleText δ} {tmp rest : Bytes} {v : LeptValue δ}
    (h : JsonReads good fp (0x5B :: tmp) (.value v) rest) :
    v = .array [] ∧ skipSpace tmp = 0x5D :: rest ∨
      ∃ vs, v = .array vs ∧ JsonReads good fp (skipSpace tmp) (.elements vs) rest := by
  rcases value_inv h with hch | hnumber | ⟨hch, -⟩ | ⟨-, h⟩ | ⟨hch, -⟩
  · exact absurd hch (by decide)
  · exact absurd (LeptContext.number_ch hnumber) (not_number_ch (by decide) (by decide))
  · exact absurd hch (by decide)
  · exact h
  · exact absurd hch (by decide)

theorem object_inv {fp : DoubleText δ} {tmp rest : Bytes} {v : LeptValue δ}
    (h : JsonReads good fp (0x7B :: tmp) (.value v) rest) :
    v = .object [] ∧ skipSpace tmp = 0x7D :: rest ∨
      ∃ ms, v = objectOf ms ∧ JsonReads good fp (skipSpace tmp) (.entries ms) rest := by
  rcases value_inv h with hch | hnumber | ⟨hch, -⟩ | ⟨hch, -⟩ | ⟨-, h⟩
  · exact absurd hch (by decide)
  · exact absurd (LeptContext.number_ch hnumber) (not_number_ch (by decide) (by decide))
  · exact absurd hch (by decide)
  · exact absurd hch (by decide)
  · exact h

theorem elements_inv {fp : DoubleText δ} {tmp rest : Bytes} {vs : List (LeptValue δ)}
    (h : JsonReads good fp tmp (.elements vs) rest) :
    ∃ v tmp₁, JsonReads good fp tmp (.value v) tmp₁ ∧
      (vs = [v] ∧ skipSpace tmp₁ = 0x5D :: rest ∨
        ∃ tmp₂ vs', vs = v :: vs' ∧ skipSpace tmp₁ = 0x2C :: tmp₂ ∧
          JsonReads good fp (skipSpace tmp₂) (.elements vs') rest) := by
  cases h with
  | lastElement h hclose => exact ⟨_, _, h, .inl ⟨rfl, hclose⟩⟩
  | element h hcomma hrest => exact ⟨_, _, h, .inr ⟨_, _, rfl, hcomma, hrest⟩⟩

theorem entries_inv {fp : DoubleText δ} {tmp rest : Bytes} {ms : List (Bytes × LeptValue δ)}
    (h : JsonReads good fp (0x22 :: tmp) (.entries ms) rest) :
    ∃ k tmp₁ tmp₂ v tmp₃, ReadsString good tmp k tmp₁ ∧ skipSpace tmp₁ = 0x3A :: tmp₂ ∧
      JsonReads good fp (skipSpace tmp₂) (.value v) tmp₃ ∧
      (ms = [(k, v)] ∧ skipSpace tmp₃ = 0x7D :: rest ∨
        ∃ tmp₄ ms', ms = (k, v) :: ms' ∧ skipSpace tmp₃ = 0x2C :: tmp₄ ∧
          JsonReads good fp (skipSpace tmp₄) (.entries ms') rest) := by
  cases h with
  | lastEntry hkey hcolon h hclose =>
    exact ⟨_, _, _, _, _, hkey, hcolon, h, .inl ⟨rfl, hclose⟩⟩
  | entry hkey hcolon h hcomma hrest =>
    exact ⟨_, _, _, _, _, hkey, hcolon, h, .inr ⟨_, _, rfl, hcomma, hrest⟩⟩

theorem number_inv {fp : DoubleText δ} {b : UInt8}
    (hb : LeptContext.isDigit b = true ∨ b = 0x2D) {tmp rest : Bytes} {v : LeptValue δ}
    (h : JsonReads good fp (b :: tmp) (.value v) rest) :
    (LeptContext.init (b :: tmp)).parseNumber fp = .ok v (.init rest) := by
  have hne : ∀ x, LeptContext.isDigit x = false → x ≠ 0x2D → b ≠ x := by
    intro x hx hminus
    rcases hb with hb | rfl
    · exact ne_of_class hb hx
    · exact hminus.symm
  rcases value_inv h with (hch | hch | hch) | hnumber | ⟨hch, -⟩ | ⟨hch, -⟩ | ⟨hch, -⟩
  · exact absurd hch (hne _ (by decide) (by decide))
  · exact absurd hch (hne _ (by decide) (by decide))
  · exact absurd hch (hne _ (by decide) (by decide))
  · exact hnumber
  · exact absurd hch (hne _ (by decide) (by decide))
  · exact absurd hch (hne _ (by decide) (by decide))
  · exact absurd hch (hne _ (by decide) (by decide))

theorem number_head {t : Bytes} (h : Number t) :
    ∃ b t', t = b :: t' ∧ (LeptContext.isDigit b = true ∨ b = 0x2D) := by
  obtain ⟨rfl | rfl, hint, -, -⟩ := h
  · cases hint with
    | zero => exact ⟨0x30, _, rfl, .inl rfl⟩
    | digits hd _ _ => exact ⟨_, _, rfl, .inl hd⟩
  · exact ⟨0x2D, _, rfl, .inr rfl⟩

theorem startsValue_of_gram {kind : JsonGrammar.Phrase} {t : Bytes} (h : Gram kind t) :
    StartsValue t := by
  induction h with
  | true => exact ⟨0x74, _, rfl, by decide⟩
  | false => exact ⟨0x66, _, rfl, by decide⟩
  | null => exact ⟨0x6E, _, rfl, by decide⟩
  | number h =>
    obtain ⟨b, t, rfl, hb⟩ := number_head h
    exact startsValue_number hb t
  | string h => exact ⟨0x22, _, rfl, by decide⟩
  | emptyArray hw => exact ⟨0x5B, _, rfl, by decide⟩
  | array hw h hw' ih => exact ⟨0x5B, _, rfl, by decide⟩
  | emptyObject hw => exact ⟨0x7B, _, rfl, by decide⟩
  | object hw h hw' ih => exact ⟨0x7B, _, rfl, by decide⟩
  | lastElement h ih => exact ih
  | element h hw hw' hrest ih ihrest => exact ih.append _
  | lastMember hk hw hw' h ih => exact ⟨0x22, _, rfl, by decide⟩
  | member hk hw hw' h hw₁ hw₂ hrest ih ihrest => exact ⟨0x22, _, rfl, by decide⟩

theorem members_head {t : Bytes} (h : Gram .members t) (r : Bytes) :
    (t ++ r).headD 0 = 0x22 := by
  cases h with
  | lastMember hk hw hw' h => rfl
  | member hk hw hw' h hw₁ hw₂ hrest => rfl

/-- White space is skipped up to a phrase. -/
theorem skipSpace_gram {kind : JsonGrammar.Phrase} {w t : Bytes} (hw : Space w)
    (ht : Gram kind t) (r : Bytes) : skipSpace (w ++ (t ++ r)) = t ++ r := by
  obtain ⟨b, rest, htext, hb, -⟩ := (startsValue_of_gram ht).append r
  rw [htext]
  exact skipSpace_append hw hb

theorem skipSpace_cons {w : Bytes} (hw : Space w) {b : UInt8}
    (hb : LeptContext.isWhitespace b = false) (r : Bytes) : skipSpace (w ++ b :: r) = b :: r :=
  skipSpace_append hw hb

theorem endsNumber_space {w : Bytes} (hw : Space w) {b : UInt8} (hb : EndsNumber [b]) (r : Bytes) :
    EndsNumber (w ++ b :: r) := by
  cases w with
  | nil => exact hb
  | cons x w =>
    have hx : x = 0x20 ∨ x = 0x09 ∨ x = 0x0A ∨ x = 0x0D := by
      have hspace := hw x List.mem_cons_self
      simp only [JsonText.isSpace, Bool.or_eq_true, beq_iff_eq] at hspace
      tauto
    rcases hx with rfl | rfl | rfl | rfl <;> exact endsNumber_cons (by decide) _

/-- Of such a text the parser reads all or nothing, and with hexadecimal digits only. -/
def ReadsAll (fp : DoubleText δ) : JsonGrammar.Phrase → Bytes → Prop
  | .value, t => ∀ r v rest, EndsNumber r → JsonReads AnyRound fp (t ++ r) (.value v) rest →
      rest = r ∧ JsonReads HexRound fp (t ++ r) (.value v) r
  | .elements, t => ∀ w r vs rest, Space w →
      JsonReads AnyRound fp (t ++ (w ++ 0x5D :: r)) (.elements vs) rest →
        rest = r ∧ JsonReads HexRound fp (t ++ (w ++ 0x5D :: r)) (.elements vs) r
  | .members, t => ∀ w r ms rest, Space w →
      JsonReads AnyRound fp (t ++ (w ++ 0x7D :: r)) (.entries ms) rest →
        rest = r ∧ JsonReads HexRound fp (t ++ (w ++ 0x7D :: r)) (.entries ms) r

/-- Of a member of an object, too. -/
theorem member_of_gram {fp : DoubleText δ} {k w w' t r : Bytes} (hk : Chars k) (hw : Space w)
    (hw' : Space w') (ht : Gram .value t) (hall : ReadsAll fp .value t) (hr : EndsNumber r)
    {key tmp₁ tmp₂ tmp₃ : Bytes} {v : LeptValue δ}
    (hkey : ReadsString AnyRound (k ++ 0x22 :: (w ++ 0x3A :: (w' ++ (t ++ r)))) key tmp₁)
    (hcolon : skipSpace tmp₁ = 0x3A :: tmp₂)
    (h : JsonReads AnyRound fp (skipSpace tmp₂) (.value v) tmp₃) :
    tmp₃ = r ∧ ReadsString HexRound (k ++ 0x22 :: (w ++ 0x3A :: (w' ++ (t ++ r)))) key tmp₁ ∧
      JsonReads HexRound fp (skipSpace tmp₂) (.value v) r := by
  have hskip := skipSpace_cons hw (b := 0x3A) (by decide) (w' ++ (t ++ r))
  have hskip' := skipSpace_gram hw' ht r
  obtain ⟨rfl, hhex⟩ := readsString_of_chars hkey rfl hk
  obtain rfl := (List.cons.inj (hskip.symm.trans hcolon)).2
  rw [hskip'] at h ⊢
  obtain ⟨hrest, hv⟩ := hall r v tmp₃ hr h
  exact ⟨hrest, hhex, hv⟩

/-- **Of a text of the grammar the parser reads all or nothing.** -/
theorem reads_of_gram (fp : DoubleText δ) {kind : JsonGrammar.Phrase} {t : Bytes}
    (h : Gram kind t) : ReadsAll fp kind t := by
  induction h with
  | true =>
    intro r v rest hr h
    have htrue : JsonReads HexRound fp (Http11.ascii "true" ++ r) (.value (.boolean true)) r :=
      .true r
    obtain ⟨rfl, rfl⟩ := LeptContext.reads_unique h htrue
    exact ⟨rfl, htrue⟩
  | false =>
    intro r v rest hr h
    have hfalse : JsonReads HexRound fp (Http11.ascii "false" ++ r) (.value (.boolean false)) r :=
      .false r
    obtain ⟨rfl, rfl⟩ := LeptContext.reads_unique h hfalse
    exact ⟨rfl, hfalse⟩
  | null =>
    intro r v rest hr h
    have hnull : JsonReads HexRound fp (Http11.ascii "null" ++ r) (.value .null) r := .null r
    obtain ⟨rfl, rfl⟩ := LeptContext.reads_unique h hnull
    exact ⟨rfl, hnull⟩
  | @number t ht =>
    intro r v rest hr h
    obtain ⟨i, hscan⟩ := scanNumber_of_number ht hr
    obtain ⟨b, t, rfl, hb⟩ := number_head ht
    have hnumber := number_inv hb h
    obtain ⟨i', hscan'⟩ := LeptContext.scanNumber_of_parseNumber hnumber
    obtain rfl : r = rest := congrArg Prod.fst (Option.some.inj (hscan.symm.trans hscan'))
    exact ⟨rfl, .number hnumber⟩
  | @string t ht =>
    intro r v rest hr h
    have htext : quoted t ++ r = 0x22 :: (t ++ 0x22 :: r) := by simp [quoted]
    rw [htext] at h ⊢
    obtain ⟨s, rfl, hs⟩ := string_inv h
    obtain ⟨rfl, hhex⟩ := readsString_of_chars hs rfl ht
    exact ⟨rfl, .string hhex⟩
  | @emptyArray w hw =>
    intro r v rest hr h
    have hskip := skipSpace_cons hw (b := 0x5D) (by decide) r
    rw [List.cons_append, List.append_assoc, List.singleton_append] at h ⊢
    rcases array_inv h with ⟨rfl, hclose⟩ | ⟨vs, -, hvs⟩
    · obtain rfl := (List.cons.inj (hskip.symm.trans hclose)).2
      exact ⟨rfl, .emptyArray hskip⟩
    · rw [hskip] at hvs
      exact absurd rfl (LeptContext.startsValue_of_reads hvs).ch_ne
  | @array w t w' hw ht hw' ih =>
    intro r v rest hr h
    have htext : 0x5B :: (w ++ (t ++ (w' ++ [0x5D]))) ++ r =
        0x5B :: (w ++ (t ++ (w' ++ 0x5D :: r))) := by simp
    have hskip := skipSpace_gram hw ht (w' ++ 0x5D :: r)
    rw [htext] at h ⊢
    rcases array_inv h with ⟨-, hclose⟩ | ⟨vs, rfl, hvs⟩
    · have hne := ((startsValue_of_gram ht).append (w' ++ 0x5D :: r)).ch_ne
      rw [← hskip, hclose] at hne
      exact absurd rfl hne
    · rw [hskip] at hvs
      obtain ⟨rfl, hhex⟩ := ih w' r vs rest hw' hvs
      rw [← hskip] at hhex
      exact ⟨rfl, .array hhex⟩
  | @emptyObject w hw =>
    intro r v rest hr h
    have hskip := skipSpace_cons hw (b := 0x7D) (by decide) r
    rw [List.cons_append, List.append_assoc, List.singleton_append] at h ⊢
    rcases object_inv h with ⟨rfl, hclose⟩ | ⟨ms, -, hms⟩
    · obtain rfl := (List.cons.inj (hskip.symm.trans hclose)).2
      exact ⟨rfl, .emptyObject hskip⟩
    · rw [hskip] at hms
      exact absurd (LeptContext.entries_ch hms) (by decide : (0x7D : UInt8) ≠ 0x22)
  | @object w t w' hw ht hw' ih =>
    intro r v rest hr h
    have htext : 0x7B :: (w ++ (t ++ (w' ++ [0x7D]))) ++ r =
        0x7B :: (w ++ (t ++ (w' ++ 0x7D :: r))) := by simp
    have hskip := skipSpace_gram hw ht (w' ++ 0x7D :: r)
    rw [htext] at h ⊢
    rcases object_inv h with ⟨-, hclose⟩ | ⟨ms, rfl, hms⟩
    · have hhead := members_head ht (w' ++ 0x7D :: r)
      rw [← hskip, hclose] at hhead
      exact absurd hhead (by decide : (0x7D : UInt8) ≠ 0x22)
    · rw [hskip] at hms
      obtain ⟨rfl, hhex⟩ := ih w' r ms rest hw' hms
      rw [← hskip] at hhex
      exact ⟨rfl, .object hhex⟩
  | @lastElement t ht ih =>
    intro w r vs rest hw h
    have hends : EndsNumber (w ++ 0x5D :: r) :=
      endsNumber_space hw (endsNumber_cons (by decide) []) r
    have hskip := skipSpace_cons hw (b := 0x5D) (by decide) r
    obtain ⟨v, tmp₁, hv, hcases⟩ := elements_inv h
    obtain ⟨rfl, hhex⟩ := ih _ _ _ hends hv
    rcases hcases with ⟨rfl, hclose⟩ | ⟨tmp₂, vs, -, hcomma, -⟩
    · obtain rfl := (List.cons.inj (hskip.symm.trans hclose)).2
      exact ⟨rfl, .lastElement hhex hclose⟩
    · exact absurd (List.cons.inj (hskip.symm.trans hcomma)).1 (by decide)
  | @element t w w' ts ht hw hw' hts ih ihrest =>
    intro w₁ r vs rest hw₁ h
    have htext : t ++ (w ++ 0x2C :: (w' ++ ts)) ++ (w₁ ++ 0x5D :: r) =
        t ++ (w ++ 0x2C :: (w' ++ (ts ++ (w₁ ++ 0x5D :: r)))) := by simp
    have hends : EndsNumber (w ++ 0x2C :: (w' ++ (ts ++ (w₁ ++ 0x5D :: r)))) :=
      endsNumber_space hw (endsNumber_cons (by decide) []) _
    have hskip := skipSpace_cons hw (b := 0x2C) (by decide) (w' ++ (ts ++ (w₁ ++ 0x5D :: r)))
    have hskip' := skipSpace_gram hw' hts (w₁ ++ 0x5D :: r)
    rw [htext] at h ⊢
    obtain ⟨v, tmp₁, hv, hcases⟩ := elements_inv h
    obtain ⟨rfl, hhex⟩ := ih _ _ _ hends hv
    rcases hcases with ⟨-, hclose⟩ | ⟨tmp₂, vs, rfl, hcomma, hrest⟩
    · exact absurd (List.cons.inj (hskip.symm.trans hclose)).1 (by decide)
    · obtain rfl := (List.cons.inj (hskip.symm.trans hcomma)).2
      rw [hskip'] at hrest
      obtain ⟨rfl, hhex'⟩ := ihrest w₁ r _ rest hw₁ hrest
      rw [← hskip'] at hhex'
      exact ⟨rfl, .element hhex hcomma hhex'⟩
  | @lastMember k w w' t hk hw hw' ht ih =>
    intro w₁ r ms rest hw₁ h
    have htext : quoted k ++ (w ++ 0x3A :: (w' ++ t)) ++ (w₁ ++ 0x7D :: r) =
        0x22 :: (k ++ 0x22 :: (w ++ 0x3A :: (w' ++ (t ++ (w₁ ++ 0x7D :: r))))) := by
      simp [quoted]
    have hends : EndsNumber (w₁ ++ 0x7D :: r) :=
      endsNumber_space hw₁ (endsNumber_cons (by decide) []) r
    have hskip := skipSpace_cons hw₁ (b := 0x7D) (by decide) r
    rw [htext] at h ⊢
    obtain ⟨key, tmp₁, tmp₂, v, tmp₃, hkey, hcolon, hv, hcases⟩ := entries_inv h
    obtain ⟨rfl, hhex, hvalue⟩ := member_of_gram hk hw hw' ht ih hends hkey hcolon hv
    rcases hcases with ⟨rfl, hclose⟩ | ⟨tmp₄, ms, -, hcomma, -⟩
    · obtain rfl := (List.cons.inj (hskip.symm.trans hclose)).2
      exact ⟨rfl, .lastEntry hhex hcolon hvalue hclose⟩
    · exact absurd (List.cons.inj (hskip.symm.trans hcomma)).1 (by decide)
  | @member k w w' t w₁ w₂ ts hk hw hw' ht hw₁ hw₂ hts ih ihrest =>
    intro w₃ r ms rest hw₃ h
    have htext : quoted k ++ (w ++ 0x3A :: (w' ++ (t ++ (w₁ ++ 0x2C :: (w₂ ++ ts))))) ++
        (w₃ ++ 0x7D :: r) = 0x22 :: (k ++ 0x22 :: (w ++ 0x3A :: (w' ++ (t ++
          (w₁ ++ 0x2C :: (w₂ ++ (ts ++ (w₃ ++ 0x7D :: r)))))))) := by
      simp [quoted]
    have hends : EndsNumber (w₁ ++ 0x2C :: (w₂ ++ (ts ++ (w₃ ++ 0x7D :: r)))) :=
      endsNumber_space hw₁ (endsNumber_cons (by decide) []) _
    have hskip := skipSpace_cons hw₁ (b := 0x2C) (by decide) (w₂ ++ (ts ++ (w₃ ++ 0x7D :: r)))
    have hskip' := skipSpace_gram hw₂ hts (w₃ ++ 0x7D :: r)
    rw [htext] at h ⊢
    obtain ⟨key, tmp₁, tmp₂, v, tmp₃, hkey, hcolon, hv, hcases⟩ := entries_inv h
    obtain ⟨rfl, hhex, hvalue⟩ := member_of_gram hk hw hw' ht ih hends hkey hcolon hv
    rcases hcases with ⟨-, hclose⟩ | ⟨tmp₄, ms, rfl, hcomma, hrest⟩
    · exact absurd (List.cons.inj (hskip.symm.trans hclose)).1 (by decide)
    · obtain rfl := (List.cons.inj (hskip.symm.trans hcomma)).2
      rw [hskip'] at hrest
      obtain ⟨rfl, hhex'⟩ := ihrest w₃ r _ rest hw₃ hrest
      rw [← hskip'] at hhex'
      exact ⟨rfl, .entry hhex hcolon hvalue hcomma hhex'⟩

/-- White space around a text. -/
theorem parsedText_append {w t w' : Bytes} (hw : Space w) (ht : StartsValue (t ++ (w' ++ [0]))) :
    parsedText (w ++ (t ++ w')) = t ++ (w' ++ [0]) := by
  obtain ⟨b, rest, htext, hb, -⟩ := ht
  have happend : w ++ (t ++ w') ++ [0] = w ++ (t ++ (w' ++ [0])) := by simp
  rw [parsedText, happend, htext]
  exact skipSpace_append hw hb

theorem eq_of_parsedText {json t w' : Bytes} (h : parsedText json = t ++ (w' ++ [0])) :
    ∃ w, Space w ∧ json = w ++ (t ++ w') := by
  obtain ⟨w, hw, hjson⟩ := space_of_skipSpace h
  have hend : json ++ [0] = w ++ (t ++ w') ++ [0] := by
    rw [hjson]
    simp
  exact ⟨w, hw, List.append_cancel_right hend⟩

theorem endsNumber_end {w : Bytes} (hw : Space w) : EndsNumber (w ++ [0]) :=
  endsNumber_space hw (endsNumber_cons (b := 0) (by decide) []) []

/-- **Where a payload begins with a value, it is a document if and only if nothing but white space
    is left and the digits read are hexadecimal.** -/
theorem document_iff {fp : DoubleText δ} {json rest : Bytes} {v : LeptValue δ}
    (h : JsonReads AnyRound fp (parsedText json) (.value v) rest) :
    Document json ↔
      JsonReads HexRound fp (parsedText json) (.value v) rest ∧ ∃ w, Space w ∧ rest = w ++ [0] := by
  constructor
  · rintro ⟨w, t, w', hw, ht, hw', rfl⟩
    rw [parsedText_append hw ((startsValue_of_gram ht).append _)] at h ⊢
    obtain ⟨rfl, hhex⟩ := reads_of_gram fp ht (w' ++ [0]) v rest (endsNumber_end hw') h
    exact ⟨hhex, w', hw', rfl⟩
  · rintro ⟨hhex, w', hw', rfl⟩
    obtain ⟨t, ht, htext⟩ := gram_of_reads hhex
    obtain ⟨w, hw, rfl⟩ := eq_of_parsedText htext
    exact ⟨w, t, w', hw, ht, hw', rfl⟩

end MyWebSocket
