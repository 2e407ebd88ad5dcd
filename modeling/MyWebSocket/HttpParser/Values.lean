import MyWebSocket.Library.Numerals
import MyWebSocket.HttpParser.Names

namespace MyWebSocket

open Transducer Numerals

/-!
# Header values

What the characters of a value do to the members of the parser, header by header: the digits of a
`Content-Length`, the words of the lists in `Connection` and `Transfer-Encoding`, and the values
that are of no interest.

* `foldlM_digits`, `headerValueLoop_digits` — the numbers that `Content-Length` may have;
* `FollowsWord` — what the state says about a word of a list.
-/

namespace RequestParser

/-! ### Content-Length -/

/-- The digit that a character stands for. -/
def digit (c : UInt8) : Nat := c.toNat - 0x30

/-- The largest value that is multiplied by 10. -/
def lengthLimit : Nat := (ullongMax - 10) / 10

theorem isNum_spec (c : UInt8) : isNum c = true →
    c ≠ 0x0D ∧ c ≠ 0x0A ∧ c ≠ 0x20 ∧ isHeaderChar c = true ∧ digit c < 10 := by
  refine forall_byte (P := fun c => isNum c = true →
    c ≠ 0x0D ∧ c ≠ 0x0A ∧ c ≠ 0x20 ∧ isHeaderChar c = true ∧ digit c < 10) ?_ c
  decide +kernel

theorem contentLengthChar_digit (m : ParserMembers) {c : UInt8} (hc : isNum c = true) :
    contentLengthChar m c =
      if lengthLimit < m.contentLength then .fail .invalidContentLength
      else .go .contentLengthNum { m with contentLength := m.contentLength * 10 + digit c } := by
  obtain ⟨-, -, hspace, -, hdigit⟩ := isNum_spec c hc
  rw [contentLengthChar, if_neg hspace, if_neg (by rw [hc]; nofun)]
  change (if lengthLimit < _ then _ else _) = _
  split
  · rfl
  · rename_i hlimit
    have hlarge : lengthLimit = 1844674407370955160 := by decide
    have hsmall : m.contentLength * 10 + digit c < 2 ^ 64 := by omega
    rw [show m.contentLength * 10 + (c.toNat - 0x30) = m.contentLength * 10 + digit c from rfl,
      Nat.mod_eq_of_lt hsmall]

theorem not_badHeaderChar {m : ParserMembers} {c : UInt8} (h : isHeaderChar c = true) :
    badHeaderChar m c = false := by
  rw [badHeaderChar, h, Bool.not_true, Bool.and_false]

/-- A character that belongs to a value. -/
theorem valueChar_go {m m' : ParserMembers} {c : UInt8} {st : HeaderState} (hcr : c ≠ 0x0D)
    (hlf : c ≠ 0x0A) (hheader : isHeaderChar c = true)
    (hchar : headerValueChar m.headerState m c = .go st m') :
    valueChar m c = some { m' with headerState := st } := by
  rw [valueChar, not_badHeaderChar hheader, if_neg (by simp [hcr, hlf]), hchar]

theorem valueChar_digit {m : ParserMembers} (hst : m.headerState = .contentLengthNum) {c : UInt8}
    (hc : isNum c = true) :
    valueChar m c = if lengthLimit < m.contentLength then none
      else some { m with contentLength := m.contentLength * 10 + digit c } := by
  obtain ⟨hcr, hlf, -, hheader, -⟩ := isNum_spec c hc
  have hchar : headerValueChar m.headerState m c = contentLengthChar m c := by
    rw [hst, headerValueChar]
  rw [contentLengthChar_digit m hc] at hchar
  by_cases hlimit : lengthLimit < m.contentLength
  · rw [if_pos hlimit] at hchar ⊢
    rw [valueChar, not_badHeaderChar hheader, if_neg (by simp [hcr, hlf]), hchar]
  · rw [if_neg hlimit] at hchar ⊢
    rw [valueChar_go hcr hlf hheader hchar, ← hst]

/-- The digits of a number, behind the first. -/
theorem foldlM_digits {m : ParserMembers} (hst : m.headerState = .contentLengthNum) {ds : Bytes}
    (hds : ∀ c ∈ ds, isNum c = true) :
    ds.foldlM valueChar m = (guarded 10 lengthLimit m.contentLength (ds.map digit)).map
      fun v => { m with contentLength := v } := by
  induction ds generalizing m with
  | nil => rfl
  | cons c ds ih =>
    rw [List.foldlM_cons, valueChar_digit hst (hds c List.mem_cons_self), List.map_cons,
      guarded_cons]
    split
    · rfl
    · exact ih hst fun b hb => hds b (List.mem_cons_of_mem c hb)

/-- The loop of `case s_header_value` on a digit of a number. -/
theorem headerValueLoop_digit (fuel : Nat) (m : ParserMembers) {c : UInt8} (hc : isNum c = true)
    (rest : Bytes) :
    headerValueLoop (fuel + 1) .contentLengthNum m (c :: rest) =
      if lengthLimit < m.contentLength then
        ⟨.contentLengthNum, { m with headerState := .contentLengthNum }, [], c :: rest,
          .fail .invalidContentLength⟩
      else
        let r := headerValueLoop fuel .contentLengthNum
          { m with contentLength := m.contentLength * 10 + digit c } rest
        { r with taken := c :: r.taken } := by
  obtain ⟨hcr, hlf, -, hheader, -⟩ := isNum_spec c hc
  have hchar : headerValueChar .contentLengthNum m c = contentLengthChar m c := rfl
  have hgeneral : HeaderState.contentLengthNum ≠ .general := by decide
  rw [headerValueLoop, if_neg hcr, if_neg hlf, not_badHeaderChar hheader, if_neg Bool.false_ne_true,
    if_neg hgeneral, hchar, contentLengthChar_digit m hc]
  by_cases hlimit : lengthLimit < m.contentLength
  · rw [if_pos hlimit, if_pos hlimit]
    rfl
  · rw [if_neg hlimit, if_neg hlimit]

/-- The digits of a number, behind the first, in the loop of `case s_header_value`. -/
theorem headerValueLoop_digits {m : ParserMembers} {ds : Bytes} (hds : ∀ c ∈ ds, isNum c = true)
    (rest : Bytes) {fuel : Nat} (hfuel : ds.length < fuel) :
    (∀ v, guarded 10 lengthLimit m.contentLength (ds.map digit) = some v →
      headerValueLoop fuel .contentLengthNum m (ds ++ 0x0D :: rest) =
        ⟨.contentLengthNum, { m with contentLength := v }, ds, 0x0D :: rest, .cr⟩) ∧
    (guarded 10 lengthLimit m.contentLength (ds.map digit) = none →
      (headerValueLoop fuel .contentLengthNum m (ds ++ 0x0D :: rest)).stop =
        .fail .invalidContentLength) := by
  obtain ⟨fuel, rfl⟩ := Nat.exists_eq_add_one_of_ne_zero (Nat.ne_zero_of_lt hfuel)
  induction ds generalizing m fuel with
  | nil =>
    refine ⟨?_, nofun⟩
    rintro v ⟨⟩
    rfl
  | cons c ds ih =>
    obtain ⟨fuel, rfl⟩ := Nat.exists_eq_add_one_of_ne_zero
      (Nat.ne_zero_of_lt (Nat.lt_of_succ_lt_succ hfuel))
    rw [List.map_cons, guarded_cons, List.cons_append,
      headerValueLoop_digit _ m (hds c List.mem_cons_self)]
    by_cases hlimit : lengthLimit < m.contentLength
    · rw [if_pos hlimit, if_pos hlimit]
      exact ⟨nofun, fun _ => rfl⟩
    · rw [if_neg hlimit, if_neg hlimit]
      obtain ⟨hsome, hnone⟩ := ih (m := { m with contentLength := m.contentLength * 10 + digit c })
        (fun b hb => hds b (List.mem_cons_of_mem c hb)) fuel (Nat.lt_of_succ_lt_succ hfuel)
      refine ⟨fun v hv => ?_, fun hv => ?_⟩
      · dsimp only
        rw [hsome v hv]
      · exact hnone hv

/-- The words that are looked for in the list of a header. -/
def listWords : HeaderKind → List Bytes
  | .connection => [keepAliveWord, closeWord, upgradeWord]
  | .transferEncoding => [chunkedWord]
  | _ => []

/-- In front of a word. -/
def listStart : HeaderKind → HeaderState
  | .connection => .matchingConnectionTokenStart
  | _ => .matchingTransferEncodingTokenStart

/-- In or behind a word that is none of those that are looked for. -/
def listToken : HeaderKind → HeaderState
  | .connection => .matchingConnectionToken
  | _ => .matchingTransferEncodingToken

/-- What `header_state` and `index` say about the characters `w` of a word, in lower case. -/
def FollowsWord (w : Bytes) (i : Nat) : HeaderKind → HeaderState → Prop
  | .connection, .matchingConnectionKeepAlive => Within keepAliveWord 1 w i
  | .connection, .matchingConnectionClose => Within closeWord 1 w i
  | .connection, .matchingConnectionUpgrade => Within upgradeWord 1 w i
  | .connection, .connectionKeepAlive => w = keepAliveWord
  | .connection, .connectionClose => w = closeWord
  | .connection, .connectionUpgrade => w = upgradeWord
  | .connection, .matchingConnectionToken => ∀ word ∈ listWords .connection, ¬ w <+: word
  | .transferEncoding, .matchingTransferEncodingChunked => Within chunkedWord 1 w i
  | .transferEncoding, .transferEncodingChunked => w = chunkedWord
  | .transferEncoding, .matchingTransferEncodingToken =>
    ∀ word ∈ listWords .transferEncoding, ¬ w <+: word
  | _, _ => False

/-- The state behind a word. -/
def wordState : HeaderKind → Bytes → HeaderState
  | .connection, w =>
    if w = keepAliveWord then .connectionKeepAlive
    else if w = closeWord then .connectionClose
    else if w = upgradeWord then .connectionUpgrade
    else .matchingConnectionToken
  | _, w => if w = chunkedWord then .transferEncodingChunked else .matchingTransferEncodingToken

theorem wordState_connection (w : Bytes) : wordState .connection w =
    if w = keepAliveWord then .connectionKeepAlive
    else if w = closeWord then .connectionClose
    else if w = upgradeWord then .connectionUpgrade
    else .matchingConnectionToken := rfl

theorem wordState_encoding (w : Bytes) : wordState .transferEncoding w =
    if w = chunkedWord then .transferEncodingChunked else .matchingTransferEncodingToken := rfl

/-- A word of a list that the parser takes as a whole: it is not cut short from one of those that
    are looked for. -/
structure IsWord (kind : HeaderKind) (word : Bytes) : Prop where
  ne_nil : word ≠ []
  token : ∀ c ∈ word, token c ≠ 0
  first : ∀ c ∈ word.head?, RequestParser.token (lower c) ≠ 0
  whole : ∀ w ∈ listWords kind, word.map lower <+: w → word.map lower = w

/-- The word has been read to its end. -/
theorem FollowsWord.eq_wordState {w : Bytes} {i : Nat} {kind : HeaderKind} {st : HeaderState}
    (h : FollowsWord w i kind st) (hwhole : ∀ word ∈ listWords kind, w <+: word → w = word) :
    st = wordState kind w := by
  -- within a word there is more to come
  have hwithin : ∀ {word : Bytes}, word ∈ listWords kind → ¬ Within word 1 w i := by
    intro word hmem hw
    have hmore := hw.more
    rw [hwhole word hmem hw.starts] at hmore
    exact lt_irrefl _ hmore
  unfold FollowsWord at h
  split at h
  · exact absurd h (hwithin (by decide))
  · exact absurd h (hwithin (by decide))
  · exact absurd h (hwithin (by decide))
  · rw [h]
    rfl
  · rw [h]
    rfl
  · rw [h]
    rfl
  · simp only [listWords, List.mem_cons, List.not_mem_nil, or_false, forall_eq_or_imp,
      forall_eq] at h
    rw [wordState, if_neg, if_neg, if_neg]
    · rintro rfl
      exact h.2.2 (List.prefix_refl _)
    · rintro rfl
      exact h.2.1 (List.prefix_refl _)
    · rintro rfl
      exact h.1 (List.prefix_refl _)
  · exact absurd h (hwithin (by decide))
  · rw [h]
    rfl
  · simp only [listWords, List.mem_cons, List.not_mem_nil, or_false, forall_eq] at h
    rw [wordState, if_neg]
    · rintro rfl
      exact h (List.prefix_refl _)
    · nofun
  · exact h.elim

theorem token_spec (c : UInt8) : token c ≠ 0 →
    c ≠ 0x0D ∧ c ≠ 0x0A ∧ c ≠ 0x20 ∧ c ≠ 0x2C ∧ isHeaderChar c = true := by
  refine forall_byte (P := fun c => token c ≠ 0 →
    c ≠ 0x0D ∧ c ≠ 0x0A ∧ c ≠ 0x20 ∧ c ≠ 0x2C ∧ isHeaderChar c = true) ?_ c
  decide +kernel

/-- A character behind a whole word, or in another one. -/
theorem followsWord_token {kind : HeaderKind} {w : Bytes} (c : UInt8) (i : Nat)
    (h : ∀ word ∈ listWords kind, w <+: word → word = w)
    (hkind : kind = .connection ∨ kind = .transferEncoding) :
    FollowsWord (w ++ [c]) i kind (listToken kind) := by
  have hnone : ∀ word ∈ listWords kind, ¬ w ++ [c] <+: word := by
    intro word hmem hstarts
    have hlen := hstarts.length_le
    rw [h word hmem ((List.prefix_append w [c]).trans hstarts), List.length_append,
      List.length_singleton] at hlen
    omega
  rcases hkind with rfl | rfl
  · exact hnone
  · exact hnone

/-- A character within a word of a list. -/
theorem followsWord_within {kind : HeaderKind} {word w : Bytes} {i : Nat} (now done : HeaderState)
    (c : UInt8) (h : Within word 1 w i) (hmem : word ∈ listWords kind)
    (hone : ∀ word' ∈ listWords kind, word'.take 1 = word.take 1 → word' = word)
    (hkind : kind = .connection ∨ kind = .transferEncoding)
    (hnow : Within word 1 (w ++ [c]) (i + 1) → FollowsWord (w ++ [c]) (i + 1) kind now)
    (hdone : w ++ [c] = word → FollowsWord (w ++ [c]) (i + 1) kind done) :
    FollowsWord (w ++ [c]) ((i + 1) % 32) kind
      (matchWord word ((i + 1) % 32) c (listToken kind) now done) := by
  have hlong : ∀ word ∈ listWords kind, word.length < 32 := by
    rcases hkind with rfl | rfl
    · decide
    · decide
  have hindex : (i + 1) % 32 = i + 1 := by
    have hmore := h.more
    have hlen := hlong word hmem
    have hi := h.index
    omega
  rw [hindex]
  refine matchWord_leads (P := FollowsWord (w ++ [c]) (i + 1) kind) h hone ?_ hnow hdone
  intro hother
  rcases hkind with rfl | rfl
  · exact hother
  · exact hother

/-- A character in a word that is none of those that are looked for. -/
theorem followsWord_other {kind : HeaderKind} {w : Bytes} (c : UInt8) (i : Nat)
    (h : ∀ word ∈ listWords kind, ¬ w <+: word)
    (hkind : kind = .connection ∨ kind = .transferEncoding) :
    FollowsWord (w ++ [c]) i kind (listToken kind) :=
  followsWord_token c i (fun word hmem hw => absurd hw (h word hmem)) hkind

/-- **One more character of a word of a list.** -/
theorem valueChar_word {kind : HeaderKind} {m : ParserMembers} {w : Bytes} {ch : UInt8}
    (h : FollowsWord w m.index kind m.headerState) (htoken : token ch ≠ 0) :
    ∃ i st, FollowsWord (w ++ [lower ch]) i kind st ∧
      valueChar m ch = some { m with index := i, headerState := st } := by
  obtain ⟨hcr, hlf, hspace, hcomma, hheader⟩ := token_spec ch htoken
  -- it is enough to look at the switch
  suffices hswitch : ∀ hState, FollowsWord w m.index kind hState →
      ∃ i st, FollowsWord (w ++ [lower ch]) i kind st ∧
        headerValueChar hState m ch = .go st { m with index := i } by
    obtain ⟨i, st, hfollows, hchar⟩ := hswitch m.headerState h
    exact ⟨i, st, hfollows, valueChar_go hcr hlf hheader hchar⟩
  clear h
  intro hState h
  unfold FollowsWord at h
  split at h
  · exact ⟨_, _, followsWord_within .matchingConnectionKeepAlive
      .connectionKeepAlive (lower ch) h (by decide) (by decide) (.inl rfl) (fun h => h)
      (fun h => h), rfl⟩
  · exact ⟨_, _, followsWord_within .matchingConnectionClose
      .connectionClose (lower ch) h (by decide) (by decide) (.inl rfl) (fun h => h)
      (fun h => h), rfl⟩
  · exact ⟨_, _, followsWord_within .matchingConnectionUpgrade
      .connectionUpgrade (lower ch) h (by decide) (by decide) (.inl rfl) (fun h => h)
      (fun h => h), rfl⟩
  · refine ⟨m.index, _, followsWord_token (lower ch) _ ?_ (.inl rfl), ?_⟩
    · rw [h]
      decide
    · simp [headerValueChar, hcomma, hspace, listToken]
  · refine ⟨m.index, _, followsWord_token (lower ch) _ ?_ (.inl rfl), ?_⟩
    · rw [h]
      decide
    · simp [headerValueChar, hcomma, hspace, listToken]
  · refine ⟨m.index, _, followsWord_token (lower ch) _ ?_ (.inl rfl), ?_⟩
    · rw [h]
      decide
    · simp [headerValueChar, hcomma, hspace, listToken]
  · refine ⟨m.index, _, followsWord_other (lower ch) _ h (.inl rfl), ?_⟩
    simp [headerValueChar, hcomma, listToken]
  · exact ⟨_, _, followsWord_within .matchingTransferEncodingChunked
      .transferEncodingChunked (lower ch) h (by decide) (by decide) (.inr rfl)
      (fun h => h) (fun h => h), rfl⟩
  · refine ⟨m.index, _, followsWord_token (lower ch) _ ?_ (.inr rfl), ?_⟩
    · rw [h]
      decide
    · simp [headerValueChar, hspace, listToken]
  · refine ⟨m.index, _, followsWord_other (lower ch) _ h (.inr rfl), ?_⟩
    simp [headerValueChar, hcomma, listToken]
  · exact h.elim

theorem foldlM_followsWord {kind : HeaderKind} {m : ParserMembers} {w v : Bytes}
    (h : FollowsWord w m.index kind m.headerState) (hv : ∀ c ∈ v, token c ≠ 0) :
    ∃ i st, FollowsWord (w ++ v.map lower) i kind st ∧
      v.foldlM valueChar m = some { m with index := i, headerState := st } := by
  induction v generalizing m w with
  | nil =>
    rw [List.map_nil, List.append_nil]
    exact ⟨m.index, m.headerState, h, rfl⟩
  | cons c v ih =>
    obtain ⟨i, st, hfollows, hchar⟩ := valueChar_word h (hv c List.mem_cons_self)
    have hrest := ih (m := { m with index := i, headerState := st }) hfollows
      fun b hb => hv b (List.mem_cons_of_mem c hb)
    rw [List.foldlM_cons, hchar, List.map_cons, List.append_cons]
    exact hrest

/-- The state behind the first character of a word. -/
def wordStart : HeaderKind → UInt8 → HeaderState
  | .connection, c =>
    if c = 0x6B then .matchingConnectionKeepAlive
    else if c = 0x63 then .matchingConnectionClose
    else if c = 0x75 then .matchingConnectionUpgrade
    else .matchingConnectionToken
  | _, c =>
    if c = 0x63 then .matchingTransferEncodingChunked else .matchingTransferEncodingToken

theorem wordStart_connection (c : UInt8) : wordStart .connection c =
    if c = 0x6B then .matchingConnectionKeepAlive
    else if c = 0x63 then .matchingConnectionClose
    else if c = 0x75 then .matchingConnectionUpgrade
    else .matchingConnectionToken := rfl

theorem wordStart_encoding (c : UInt8) : wordStart .transferEncoding c =
    if c = 0x63 then .matchingTransferEncodingChunked else .matchingTransferEncodingToken := rfl

/-- The headers whose values are lists. -/
def HeaderKind.IsList (kind : HeaderKind) : Prop := kind = .connection ∨ kind = .transferEncoding

theorem followsWord_start {kind : HeaderKind} (hkind : kind.IsList) (c : UInt8) :
    FollowsWord [c] 0 kind (wordStart kind c) := by
  have hfirst : ∀ word ∈ listWords kind, [c] <+: word → word[0]? = some c := fun word _ hw =>
    getElem?_of_starts (w := []) hw
  rcases hkind with rfl | rfl
  · have hletter : ∀ word ∈ listWords .connection, word[0]? = some 0x6B ∨ word[0]? = some 0x63 ∨
        word[0]? = some 0x75 := by
      decide
    rw [wordStart_connection]
    split_ifs with hk hc hu
    · subst hk
      exact ⟨by decide, by decide, by decide, rfl⟩
    · subst hc
      exact ⟨by decide, by decide, by decide, rfl⟩
    · subst hu
      exact ⟨by decide, by decide, by decide, rfl⟩
    · intro word hmem hw
      have hletter := hletter word hmem
      rw [hfirst word hmem hw] at hletter
      simp only [Option.some.injEq] at hletter
      tauto
  · have hletter : ∀ word ∈ listWords .transferEncoding, word[0]? = some 0x63 := by
      decide
    rw [wordStart_encoding]
    split_ifs with hc
    · subst hc
      exact ⟨by decide, by decide, by decide, rfl⟩
    · intro word hmem hw
      have hletter := hletter word hmem
      rw [hfirst word hmem hw] at hletter
      exact hc (Option.some.inj hletter)

/-- A word behind its first character. -/
theorem foldlM_word_rest {kind : HeaderKind} (hkind : kind.IsList) {c : UInt8} {v : Bytes}
    (hword : IsWord kind (c :: v)) {m : ParserMembers} (hindex : m.index = 0)
    (hst : m.headerState = wordStart kind (lower c)) :
    ∃ i, v.foldlM valueChar m =
      some { m with index := i, headerState := wordState kind ((c :: v).map lower) } := by
  have hstart : FollowsWord [lower c] m.index kind m.headerState := by
    rw [hindex, hst]
    exact followsWord_start hkind (lower c)
  obtain ⟨i, st, hfollows, hfold⟩ := foldlM_followsWord hstart
    fun b hb => hword.token b (List.mem_cons_of_mem c hb)
  have hend : st = wordState kind ((c :: v).map lower) :=
    FollowsWord.eq_wordState (w := (c :: v).map lower) hfollows hword.whole
  rw [← hend]
  exact ⟨i, hfold⟩

/-- The first character of a word behind a comma. -/
theorem valueChar_first {kind : HeaderKind} (hkind : kind.IsList) {m : ParserMembers}
    (hst : m.headerState = listStart kind) {c : UInt8} (htoken : token c ≠ 0)
    (hfirst : token (lower c) ≠ 0) :
    valueChar m c = some { m with headerState := wordStart kind (lower c) } := by
  obtain ⟨hcr, hlf, -, -, hheader⟩ := token_spec c htoken
  refine valueChar_go hcr hlf hheader ?_
  rw [hst]
  rcases hkind with rfl | rfl
  · simp only [listStart, headerValueChar, tokenStart, if_pos hfirst]
    rfl
  · simp only [listStart, headerValueChar, tokenStart, if_pos hfirst]
    rfl

/-- **A word of a list**, behind a comma. -/
theorem foldlM_word {kind : HeaderKind} (hkind : kind.IsList) {word : Bytes}
    (hword : IsWord kind word) {m : ParserMembers} (hindex : m.index = 0)
    (hst : m.headerState = listStart kind) :
    ∃ i, word.foldlM valueChar m =
      some { m with index := i, headerState := wordState kind (word.map lower) } := by
  obtain ⟨c, v, rfl⟩ := List.exists_cons_of_ne_nil hword.ne_nil
  rw [List.foldlM_cons, valueChar_first hkind hst (hword.token c List.mem_cons_self)
    (hword.first c rfl)]
  exact foldlM_word_rest (m := { m with headerState := wordStart kind (lower c) }) hkind hword
    hindex rfl

/-- The members once a word of a list counts. -/
def withWord (kind : HeaderKind) (w : Bytes) (m : ParserMembers) : ParserMembers :=
  match kind with
  | .connection => { m with flags := { m.flags with
      connectionKeepAlive := m.flags.connectionKeepAlive || decide (w = keepAliveWord)
      connectionClose := m.flags.connectionClose || decide (w = closeWord)
      connectionUpgrade := m.flags.connectionUpgrade || decide (w = upgradeWord) } }
  | _ => { m with flags.chunked := m.flags.chunked || decide (w = chunkedWord) }

/-- The flags of a word of `Connection`. -/
theorem setConnectionFlag_word (m : ParserMembers) (w : Bytes) :
    setConnectionFlag (wordState .connection w) m = withWord .connection w m := by
  by_cases hk : w = keepAliveWord
  · subst hk
    simp [wordState, setConnectionFlag, withWord, show keepAliveWord ≠ closeWord by decide,
      show keepAliveWord ≠ upgradeWord by decide]
  by_cases hc : w = closeWord
  · subst hc
    simp [wordState, setConnectionFlag, withWord, hk, show closeWord ≠ upgradeWord by decide]
  by_cases hu : w = upgradeWord
  · subst hu
    simp [wordState, setConnectionFlag, withWord, hk, hc]
  · simp [wordState, setConnectionFlag, withWord, hk, hc, hu]

/-- The last word of a list counts when the header ends. -/
theorem finishHeader_word {kind : HeaderKind} (hkind : kind.IsList) {m : ParserMembers} {w : Bytes}
    (hst : m.headerState = wordState kind w) : finishHeader m = withWord kind w m := by
  rcases hkind with rfl | rfl
  · rw [← setConnectionFlag_word, finishHeader]
    split
    · rename_i hchunked
      rw [hst, wordState_connection] at hchunked
      split_ifs at hchunked
    · rw [hst]
  · by_cases hw : w = chunkedWord
    · rw [wordState_encoding, if_pos hw] at hst
      simp [finishHeader, withWord, hst, hw]
    · rw [wordState_encoding, if_neg hw] at hst
      have hsame : withWord .transferEncoding w m = m := by
        rw [withWord, decide_eq_false hw, Bool.or_false]
        nofun
      rw [hsame, finishHeader]
      split
      · rename_i hchunked
        exact absurd (hst.symm.trans hchunked) (by decide)
      · rw [hst]
        rfl

/-- A comma: the word in front of it counts. -/
theorem valueChar_comma {kind : HeaderKind} (hkind : kind.IsList) {m : ParserMembers} {w : Bytes}
    (hst : m.headerState = wordState kind w)
    (hlast : kind = .transferEncoding → w ≠ chunkedWord) :
    valueChar m 0x2C =
      some { withWord kind w m with index := 0, headerState := listStart kind } := by
  have hchar : headerValueChar m.headerState m 0x2C =
      .go (listStart kind) { withWord kind w m with index := 0 } := by
    rw [hst]
    rcases hkind with rfl | rfl
    · rw [← setConnectionFlag_word, wordState_connection]
      split_ifs <;> rfl
    · simp [wordState, withWord, hlast rfl, headerValueChar]
      rfl
  exact valueChar_go (by decide) (by decide) (by decide) hchar

/-- Blanks in front of a word and behind it. -/
theorem foldlM_blanks {kind : HeaderKind} (hkind : kind.IsList) {m : ParserMembers}
    (hst : m.headerState = listStart kind ∨ ∃ w, m.headerState = wordState kind w) (n : Nat) :
    (List.replicate n 0x20).foldlM valueChar m = some m := by
  have hblank : headerValueChar m.headerState m 0x20 = .go m.headerState m := by
    rcases hst with hst | ⟨w, hst⟩
    · rw [hst]
      rcases hkind with rfl | rfl
      · rfl
      · rfl
    · rw [hst]
      rcases hkind with rfl | rfl
      · rw [wordState_connection]
        split_ifs <;> rfl
      · rw [wordState_encoding]
        split_ifs <;> rfl
  have hchar : valueChar m 0x20 = some m :=
    valueChar_go (by decide) (by decide) (by decide) hblank
  induction n with
  | zero => rfl
  | succ n ih =>
    rw [List.replicate_succ, List.foldlM_cons, hchar]
    exact ih

end RequestParser

end MyWebSocket
