import MyWebSocket.HttpParser.Agreement

namespace MyWebSocket

open Transducer

/-!
# Header names

The parser recognises the names it acts on while it reads them: `header_state` and `index` stand
for the characters read so far.

* `matchWord_eq` — one more character against a word;
* `Follows` — what the state says about the characters read so far;
* `foldlM_name` — a whole name: the header it stands for, and `uses_transfer_encoding`.
-/

namespace RequestParser

/-! ### Words -/

/-- One more character of a word: it is read to its end, or goes on, or is another one. -/
theorem matchWord_eq {word w : Bytes} {c : UInt8} (hw : w <+: word) (hlen : w.length < word.length)
    (fail now done : HeaderState) :
    matchWord word w.length c fail now done =
      if w ++ [c] = word then done else if w ++ [c] <+: word then now else fail := by
  obtain ⟨t, rfl⟩ := hw
  obtain ⟨d, t, rfl⟩ : ∃ d t', t = d :: t' := by
    apply List.exists_cons_of_ne_nil
    rintro rfl
    simp at hlen
  have hget : (w ++ d :: t ++ [0])[w.length]? = some d := by simp
  have hlast : w.length = (w ++ d :: t).length - 1 ↔ t = [] := by
    rw [List.length_append, List.length_cons, ← List.length_eq_zero_iff]
    omega
  rw [matchWord, hget]
  by_cases hc : d = c
  · subst hc
    have hwhole : w ++ [d] = w ++ d :: t ↔ t = [] := by simp [eq_comm]
    have hstarts : w ++ [d] <+: w ++ d :: t := ⟨t, by simp⟩
    simp only [hlast, hwhole, hstarts, not_lt_of_gt hlen, ne_eq, not_true_eq_false, or_self,
      if_false, if_true]
  · have hother : ¬ w ++ [c] <+: w ++ d :: t := by
      rw [List.prefix_append_right_inj]
      rintro ⟨t', ht'⟩
      exact hc (List.cons.inj ht').1.symm
    have hne : w ++ [c] ≠ w ++ d :: t := fun heq => hother (heq ▸ List.prefix_refl _)
    rw [if_pos (.inr fun heq => hc (Option.some.inj heq)), if_neg hne, if_neg hother]

/-- Words that have a beginning of some length in common agree on it. -/
theorem take_eq_of_starts {w a b : Bytes} {k : Nat} (ha : w <+: a) (hb : w <+: b)
    (hk : k ≤ w.length) : a.take k = b.take k := by
  obtain ⟨s, rfl⟩ := ha
  obtain ⟨t, rfl⟩ := hb
  rw [List.take_append_of_le_length hk, List.take_append_of_le_length hk]

/-- Some of a word has been read, `k` characters at least; `i` is the index of the last one. -/
structure Within (word : Bytes) (k : Nat) (w : Bytes) (i : Nat) : Prop where
  starts : w <+: word
  more : w.length < word.length
  least : k ≤ w.length
  index : i + 1 = w.length

/-- **One more character within a word** that differs from the others in its first `k`
    characters. -/
theorem matchWord_leads {words : List Bytes} {word w : Bytes} {k i : Nat} {c : UInt8}
    {fail now done : HeaderState} {P : HeaderState → Prop} (h : Within word k w i)
    (hone : ∀ word' ∈ words, word'.take k = word.take k → word' = word)
    (hfail : (∀ word' ∈ words, ¬ w ++ [c] <+: word') → P fail)
    (hnow : Within word k (w ++ [c]) (i + 1) → P now) (hdone : w ++ [c] = word → P done) :
    P (matchWord word (i + 1) c fail now done) := by
  rw [h.index, matchWord_eq h.starts h.more]
  split
  · rename_i hwhole
    exact hdone hwhole
  · rename_i hpart
    split
    · rename_i hstarts
      apply hnow
      refine ⟨hstarts, ?_, ?_, ?_⟩
      · exact lt_of_le_of_ne hstarts.length_le fun hlen => hpart (hstarts.eq_of_length hlen)
      · rw [List.length_append]
        exact h.least.trans (Nat.le_add_right _ _)
      · rw [List.length_append, h.index, List.length_singleton]
    · rename_i hother
      apply hfail
      intro word' hmem hstarts
      have hw := (List.prefix_append w [c]).trans hstarts
      have hsame := hone word' hmem (take_eq_of_starts hw h.starts h.least)
      rw [hsame] at hstarts
      exact hother hstarts

/-! ### The state within a name -/

/-- The names the parser looks for. -/
def headerWords : List Bytes :=
  [connectionWord, proxyConnectionWord, contentLengthWord, transferEncodingWord, upgradeWord]

/-- What `header_state` and `index` say about the characters `w` of a name, in lower case. -/
def Follows (w : Bytes) (i : Nat) : HeaderState → Prop
  | .c => w = str "c" ∧ i = 0
  | .co => w = str "co" ∧ i = 1
  | .con => w = str "con" ∧ i = 2
  | .matchingConnection => Within connectionWord 4 w i
  | .matchingProxyConnection => Within proxyConnectionWord 1 w i
  | .matchingContentLength => Within contentLengthWord 4 w i
  | .matchingTransferEncoding => Within transferEncodingWord 1 w i
  | .matchingUpgrade => Within upgradeWord 1 w i
  | .connection => w = connectionWord ∨ w = proxyConnectionWord
  | .contentLength => w = contentLengthWord
  | .transferEncoding => w = transferEncodingWord
  | .upgrade => w = upgradeWord
  | .general => ∀ word ∈ headerWords, ¬ w <+: word
  | _ => False

/-- A word that goes on in another way than those that are looked for. -/
theorem follows_general {w : Bytes} {c : UInt8} {i : Nat}
    (h : ∀ word ∈ headerWords, w <+: word → ¬ w ++ [c] <+: word) :
    Follows (w ++ [c]) i .general := by
  intro word hmem hstarts
  exact h word hmem ((List.prefix_append w [c]).trans hstarts) hstarts

/-- A character after a whole word. -/
theorem follows_behind {w : Bytes} (hone : ∀ word ∈ headerWords, w <+: word → word = w) (c : UInt8)
    (i : Nat) : Follows (w ++ [c]) i .general := by
  refine follows_general fun word hmem hw hstarts => ?_
  have hlen := hstarts.length_le
  rw [hone word hmem hw, List.length_append, List.length_singleton] at hlen
  omega

theorem getElem?_of_starts {w word : Bytes} {c : UInt8} (h : w ++ [c] <+: word) :
    word[w.length]? = some c := by
  obtain ⟨t, rfl⟩ := h
  simp

/-- A character after a beginning that more than one word has. -/
theorem follows_branch {w : Bytes} {c : UInt8} (i : Nat)
    (h : ∀ word ∈ headerWords, w <+: word → word[w.length]? ≠ some c) :
    Follows (w ++ [c]) i .general :=
  follows_general fun word hmem hw hstarts => h word hmem hw (getElem?_of_starts hstarts)

/-- The state tells whether the name is `transfer-encoding` so far. -/
theorem Follows.transferEncoding_iff {w : Bytes} {i : Nat} {st : HeaderState}
    (h : Follows w i st) : w = transferEncodingWord ↔ st = .transferEncoding := by
  constructor
  · intro hw
    have hwithin : ∀ {word : Bytes} {k : Nat}, Within word k w i →
        transferEncodingWord.take k = word.take k ∧ transferEncodingWord.length < word.length := by
      intro word k hwithin
      rw [hw] at hwithin
      exact ⟨take_eq_of_starts (List.prefix_refl _) hwithin.starts hwithin.least, hwithin.more⟩
    cases st with
    | transferEncoding => rfl
    | general =>
      exact absurd hw fun hw => h transferEncodingWord (by decide) (hw ▸ List.prefix_refl _)
    | c | co | con => exact absurd (hw.symm.trans h.1) (by decide)
    | connection =>
      rcases h with h | h
      · exact absurd (hw.symm.trans h) (by decide)
      · exact absurd (hw.symm.trans h) (by decide)
    | contentLength | upgrade => exact absurd (hw.symm.trans h) (by decide)
    | matchingConnection | matchingProxyConnection | matchingContentLength
    | matchingTransferEncoding | matchingUpgrade => exact absurd (hwithin h) (by decide)
    | _ => exact h.elim
  · rintro rfl
    exact h

/-- The next character leads to a state that follows the name. -/
def GoesOn (m : ParserMembers) (w : Bytes) (ch : UInt8) : Prop :=
  ∃ i st, Follows (w ++ [token ch]) i st ∧ headerFieldChar m ch = some { m with
    index := i, headerState := st,
    usesTransferEncoding := m.usesTransferEncoding || decide (st = .transferEncoding) }

theorem goesOn_branch {m : ParserMembers} {w : Bytes} {ch : UInt8} (i : Nat) (st : HeaderState)
    (hfollows : Follows (w ++ [token ch]) i st) (hst : st ≠ .transferEncoding)
    (heq : headerFieldChar m ch = some { m with index := i, headerState := st }) :
    GoesOn m w ch := by
  refine ⟨i, st, hfollows, ?_⟩
  rw [heq, decide_eq_false hst, Bool.or_false]

theorem Within.index_lt {word w : Bytes} {k i : Nat} (h : Within word k w i)
    (hword : word ∈ headerWords) : (i + 1) % 32 = i + 1 := by
  have hlong : ∀ word ∈ headerWords, word.length < 32 := by decide
  have hmore := h.more
  have hindex := h.index
  have hlen := hlong word hword
  omega

/-- The state behind a word is none that the word does not lead to. -/
theorem matchWord_ne {word : Bytes} {i : Nat} {c : UInt8} {fail now done st : HeaderState}
    (hfail : fail ≠ st) (hnow : now ≠ st) (hdone : done ≠ st) :
    matchWord word i c fail now done ≠ st := by
  rcases matchWord_cases word i c fail now done with h | h | h <;> rw [h]
  · exact hfail
  · exact hnow
  · exact hdone

/-- The words but `transfer-encoding`. -/
theorem goesOn_word {m : ParserMembers} {word w : Bytes} {ch : UInt8} {k : Nat}
    (now done : HeaderState) (hword : word ∈ headerWords) (h : Within word k w m.index)
    (hone : ∀ word' ∈ headerWords, word'.take k = word.take k → word' = word)
    (hnow : Within word k (w ++ [token ch]) (m.index + 1) →
      Follows (w ++ [token ch]) (m.index + 1) now)
    (hdone : w ++ [token ch] = word → Follows (w ++ [token ch]) (m.index + 1) done)
    (hne : now ≠ .transferEncoding ∧ done ≠ .transferEncoding)
    (heq : headerFieldChar m ch = some { m with
      index := (m.index + 1) % 32,
      headerState := matchWord word ((m.index + 1) % 32) (token ch) .general now done }) :
    GoesOn m w ch := by
  rw [h.index_lt hword] at heq
  have hfollows : Follows (w ++ [token ch]) (m.index + 1)
      (matchWord word (m.index + 1) (token ch) .general now done) :=
    matchWord_leads h hone (fun hother => hother) hnow hdone
  exact goesOn_branch _ _ hfollows (matchWord_ne nofun hne.1 hne.2) heq

/-- **One more character of a name.** -/
theorem goesOn {m : ParserMembers} {w : Bytes} {ch : UInt8}
    (h : Follows w m.index m.headerState) (htoken : token ch ≠ 0) : GoesOn m w ch := by
  have hspace : ch ≠ 0x20 := by
    rintro rfl
    exact htoken rfl
  obtain ⟨flags, hs, index, uses⟩ := m
  cases hs
  case general =>
    exact goesOn_branch _ _ (follows_general fun word hmem hw => absurd hw (h word hmem))
      (by decide) rfl
  case connection =>
    refine goesOn_branch index .general ?_ (by decide) ?_
    · rcases h with rfl | rfl
      · exact follows_behind (by decide) _ _
      · exact follows_behind (by decide) _ _
    · simp [headerFieldChar, hspace]
  case contentLength | upgrade =>
    obtain rfl := h
    refine goesOn_branch index .general (follows_behind (by decide) _ _) (by decide) ?_
    simp [headerFieldChar, hspace]
  case transferEncoding =>
    obtain rfl := h
    refine goesOn_branch index .general (follows_behind (by decide) _ _) (by decide) ?_
    simp [headerFieldChar, hspace]
  case c =>
    obtain ⟨rfl, rfl⟩ := h
    have hletter : ∀ word ∈ headerWords, str "c" <+: word →
        word[(str "c").length]? = some 0x6F := by
      decide
    refine goesOn_branch 1 (if token ch = 0x6F then .co else .general) ?_ ?_ rfl
    · split
      · rename_i ho
        rw [ho]
        exact ⟨rfl, rfl⟩
      · rename_i ho
        refine follows_branch 1 fun word hmem hw hnext => ho ?_
        exact Option.some.inj (hnext.symm.trans (hletter word hmem hw))
    · split <;> decide
  case co =>
    obtain ⟨rfl, rfl⟩ := h
    have hletter : ∀ word ∈ headerWords, str "co" <+: word →
        word[(str "co").length]? = some 0x6E := by
      decide
    refine goesOn_branch 2 (if token ch = 0x6E then .con else .general) ?_ ?_ rfl
    · split
      · rename_i hn
        rw [hn]
        exact ⟨rfl, rfl⟩
      · rename_i hn
        refine follows_branch 2 fun word hmem hw hnext => hn ?_
        exact Option.some.inj (hnext.symm.trans (hletter word hmem hw))
    · split <;> decide
  case con =>
    obtain ⟨rfl, rfl⟩ := h
    -- here the ways of `connection` and `content-length` part
    have hletter : ∀ word ∈ headerWords, str "con" <+: word →
        word[(str "con").length]? = some 0x6E ∨ word[(str "con").length]? = some 0x74 := by
      decide
    refine goesOn_branch 3 (if token ch = 0x6E then .matchingConnection
      else if token ch = 0x74 then .matchingContentLength else .general) ?_ ?_ rfl
    · split
      · rename_i hn
        rw [hn]
        exact ⟨by decide, by decide, by decide, rfl⟩
      · rename_i hn
        split
        · rename_i ht
          rw [ht]
          exact ⟨by decide, by decide, by decide, rfl⟩
        · rename_i ht
          refine follows_branch 3 fun word hmem hw hnext => ?_
          rcases hletter word hmem hw with hletter | hletter
          · exact hn (Option.some.inj (hnext.symm.trans hletter))
          · exact ht (Option.some.inj (hnext.symm.trans hletter))
    · split
      · decide
      · split <;> decide
  case matchingConnection =>
    exact goesOn_word .matchingConnection .connection (by decide) h (by decide) (fun h => h)
      (fun hw => .inl hw) (by decide) rfl
  case matchingProxyConnection =>
    exact goesOn_word .matchingProxyConnection .connection (by decide) h (by decide) (fun h => h)
      (fun hw => .inr hw) (by decide) rfl
  case matchingContentLength =>
    exact goesOn_word .matchingContentLength .contentLength (by decide) h (by decide)
      (fun h => h) (fun hw => hw) (by decide) rfl
  case matchingTransferEncoding =>
    have hfollows : Follows (w ++ [token ch]) (index + 1)
        (matchWord transferEncodingWord (index + 1) (token ch) .general .matchingTransferEncoding
          .transferEncoding) :=
      matchWord_leads h (show ∀ word ∈ headerWords, _ from by decide) (fun hother => hother)
        (fun h => h) fun hw => hw
    refine ⟨index + 1, _, hfollows, ?_⟩
    have hindex : (index + 1) % 32 = index + 1 := h.index_lt (by decide)
    simp only [headerFieldChar, hindex]
  case matchingUpgrade =>
    exact goesOn_word .matchingUpgrade .upgrade (by decide) h (by decide) (fun h => h)
      (fun hw => hw) (by decide) rfl
  all_goals exact h.elim

/-- The members within a name of which `w` has been read, in lower case. -/
def named (m : ParserMembers) (w : Bytes) (i : Nat) (st : HeaderState) : ParserMembers :=
  { m with
    index := i, headerState := st,
    usesTransferEncoding := m.usesTransferEncoding || decide (transferEncodingWord <+: w) }

theorem nameChar_named (m : ParserMembers) {w : Bytes} {i : Nat} {st : HeaderState} {ch : UInt8}
    (h : Follows w i st) (htoken : token ch ≠ 0) :
    ∃ i' st', Follows (w ++ [token ch]) i' st' ∧
      nameChar (named m w i st) ch = some (named m (w ++ [token ch]) i' st') := by
  obtain ⟨i', st', hfollows, hchar⟩ := goesOn (m := named m w i st) h htoken
  refine ⟨i', st', hfollows, ?_⟩
  rw [nameChar, if_neg htoken, hchar, ← decide_eq_decide.mpr hfollows.transferEncoding_iff]
  have hstarts : decide (transferEncodingWord <+: w ++ [token ch]) =
      (decide (transferEncodingWord <+: w) || decide (w ++ [token ch] = transferEncodingWord)) := by
    rw [← Bool.decide_or, decide_eq_decide, List.prefix_concat_iff, or_comm, eq_comm]
  rw [named, named, hstarts, ← Bool.or_assoc]

/-- Several more characters. -/
theorem foldlM_named (m : ParserMembers) {w v : Bytes} {i : Nat} {st : HeaderState}
    (h : Follows w i st) (hv : ∀ c ∈ v, token c ≠ 0) :
    ∃ i' st', Follows (w ++ v.map token) i' st' ∧
      v.foldlM nameChar (named m w i st) = some (named m (w ++ v.map token) i' st') := by
  induction v generalizing w i st with
  | nil =>
    rw [List.map_nil, List.append_nil]
    exact ⟨i, st, h, rfl⟩
  | cons c v ih =>
    obtain ⟨i', st', hfollows, hchar⟩ := nameChar_named m h (hv c List.mem_cons_self)
    rw [List.foldlM_cons, hchar, List.map_cons, List.append_cons]
    exact ih hfollows fun b hb => hv b (List.mem_cons_of_mem c hb)

/-! ### Whole names -/

/-- The headers the parser acts on. -/
inductive HeaderKind
  | connection | contentLength | transferEncoding | upgrade | other
deriving DecidableEq, Repr

/-- The header that a name stands for, in upper or lower case. -/
def headerKind (name : Bytes) : HeaderKind :=
  let w := name.map token
  if w = connectionWord ∨ w = proxyConnectionWord then .connection
  else if w = contentLengthWord then .contentLength
  else if w = transferEncodingWord then .transferEncoding
  else if w = upgradeWord then .upgrade
  else .other

/-- The states in which the value of a header begins. -/
def HeaderKind.Begins : HeaderKind → HeaderState → Prop
  | connection, st => st = .connection
  | contentLength, st => st = .contentLength
  | transferEncoding, st => st = .transferEncoding
  | upgrade, st => st = .upgrade
  | other, st => nameState st = true ∧
      st ∉ [.connection, .contentLength, .transferEncoding, .upgrade]

theorem Follows.begins {name : Bytes} {i : Nat} {st : HeaderState}
    (h : Follows (name.map token) i st) : (headerKind name).Begins st := by
  unfold headerKind
  dsimp only
  generalize name.map token = w at h
  -- a word that is not at its end is none of those that are looked for
  have hwithin : ∀ {word : Bytes} {k : Nat}, Within word k w i →
      (∀ word' ∈ headerWords, word'.take k = word.take k → word' = word) → w ∉ headerWords := by
    intro word k hw hone hmem
    have heq := hone w hmem (take_eq_of_starts (List.prefix_refl w) hw.starts hw.least)
    exact absurd (congrArg List.length heq) hw.more.ne
  have hother : w ∉ headerWords → nameState st = true →
      st ∉ [.connection, .contentLength, .transferEncoding, .upgrade] →
      (if w = connectionWord ∨ w = proxyConnectionWord then HeaderKind.connection
        else if w = contentLengthWord then .contentLength
        else if w = transferEncodingWord then .transferEncoding
        else if w = upgradeWord then .upgrade else .other).Begins st := by
    intro hw hname hst
    simp only [headerWords, List.mem_cons, List.not_mem_nil, or_false, not_or] at hw
    rw [if_neg (by tauto), if_neg hw.2.2.1, if_neg hw.2.2.2.1, if_neg hw.2.2.2.2]
    exact ⟨hname, hst⟩
  cases st with
  | c | co | con =>
    obtain ⟨rfl, -⟩ := h
    exact ⟨rfl, by decide⟩
  | matchingConnection | matchingProxyConnection | matchingContentLength
  | matchingTransferEncoding | matchingUpgrade =>
    exact hother (hwithin h (by decide)) rfl (by decide)
  | general => exact hother (fun hmem => h w hmem (List.prefix_refl w)) rfl (by decide)
  | connection =>
    rcases h with rfl | rfl
    · rfl
    · rfl
  | contentLength | transferEncoding | upgrade =>
    obtain rfl := h
    rfl
  | _ => exact h.elim

theorem firstHeader_eq (t : UInt8) : firstHeader t =
    if t = 0x63 then .c
    else if t = 0x70 then .matchingProxyConnection
    else if t = 0x74 then .matchingTransferEncoding
    else if t = 0x75 then .matchingUpgrade
    else .general := by
  refine forall_byte (P := fun t => firstHeader t = if t = 0x63 then .c
    else if t = 0x70 then .matchingProxyConnection
    else if t = 0x74 then .matchingTransferEncoding
    else if t = 0x75 then .matchingUpgrade
    else .general) ?_ t
  decide +kernel

/-- The first character of a name. -/
theorem follows_first (t : UInt8) : Follows [t] 0 (firstHeader t) := by
  rw [firstHeader_eq]
  by_cases hc : t = 0x63
  · subst hc
    exact ⟨rfl, rfl⟩
  by_cases hp : t = 0x70
  · subst hp
    exact ⟨by decide, by decide, by decide, rfl⟩
  by_cases ht : t = 0x74
  · subst ht
    exact ⟨by decide, by decide, by decide, rfl⟩
  by_cases hu : t = 0x75
  · subst hu
    exact ⟨by decide, by decide, by decide, rfl⟩
  rw [if_neg hc, if_neg hp, if_neg ht, if_neg hu]
  have hletter : ∀ word ∈ headerWords, word[0]? = some 0x63 ∨ word[0]? = some 0x70 ∨
      word[0]? = some 0x74 ∨ word[0]? = some 0x75 := by
    decide
  refine follows_branch (w := []) 0 fun word hmem _ hnext => ?_
  have hfirst := hletter word hmem
  rw [show word[0]? = some t from hnext] at hfirst
  simp only [Option.some.injEq] at hfirst
  tauto

/-- **A whole name**, behind its first character. -/
theorem foldlM_name (m : ParserMembers) {c : UInt8} {name : Bytes}
    (hname : ∀ b ∈ c :: name, token b ≠ 0) :
    ∃ i st, (headerKind (c :: name)).Begins st ∧
      name.foldlM nameChar { m with index := 0, headerState := firstHeader (token c) } =
        some (named m ((c :: name).map token) i st) := by
  obtain ⟨i, st, hfollows, hfold⟩ := foldlM_named m (follows_first (token c))
    fun b hb => hname b (List.mem_cons_of_mem c hb)
  have hwhole : Follows ((c :: name).map token) i st := hfollows
  refine ⟨i, st, hwhole.begins, ?_⟩
  have hstart : named m [token c] 0 (firstHeader (token c)) =
      { m with index := 0, headerState := firstHeader (token c) } := by
    have hlong : 1 < transferEncodingWord.length := by decide
    have hshort : ¬ transferEncodingWord <+: [token c] := fun h => absurd h.length_le hlong.not_ge
    rw [named, decide_eq_false hshort, Bool.or_false]
  rw [← hstart]
  exact hfold

/-- **The headers the parser recognises.**  The loop of `case s_header_field` over a name leaves
    the state of the header that the name stands for, whatever its case; and it sets
    `uses_transfer_encoding` for every name that begins with `transfer-encoding`. -/
theorem headerFieldLoop_name (m : ParserMembers) {c : UInt8} {name : Bytes}
    (hname : ∀ b ∈ c :: name, token b ≠ 0) (rest : Bytes) :
    ∃ i st, (headerKind (c :: name)).Begins st ∧
      headerFieldLoop (name ++ 0x3A :: rest).length
          { m with index := 0, headerState := firstHeader (token c) } (name ++ 0x3A :: rest) =
        some ({ m with
          index := i, headerState := st,
          usesTransferEncoding := m.usesTransferEncoding ||
            decide (transferEncodingWord <+: (c :: name).map token) }, name, 0x3A :: rest) := by
  obtain ⟨i, st, hbegins, hfold⟩ := foldlM_name m hname
  refine ⟨i, st, hbegins, ?_⟩
  have hstate : nameState (firstHeader (token c)) = true := by
    rw [firstHeader_eq]
    split_ifs <;> rfl
  have hcolon : scan nameChar (named m ((c :: name).map token) i st) (0x3A :: rest) =
      ⟨named m ((c :: name).map token) i st, [], 0x3A :: rest⟩ := scan_cons_none rfl rest
  rw [headerFieldLoop_eq hstate le_rfl, scan_append hfold, hcolon, List.append_nil]
  rfl

/-- A name in capital letters, and one that only begins like one. -/
theorem headerFieldLoop_name_upper :
    ∃ i st, (headerKind (str "UPGRADE")).Begins st ∧
      headerFieldLoop (str "PGRADE: x").length
          { ParserMembers.zero with index := 0, headerState := firstHeader (token 0x55) }
          (str "PGRADE: x") =
        some ({ ParserMembers.zero with
          index := i, headerState := st,
          usesTransferEncoding := ParserMembers.zero.usesTransferEncoding ||
            decide (transferEncodingWord <+: (str "UPGRADE").map token) },
          str "PGRADE", str ": x") :=
  headerFieldLoop_name .zero (show ∀ b ∈ 0x55 :: str "PGRADE", token b ≠ 0 by decide +kernel)
    (str " x")

end RequestParser

end MyWebSocket
