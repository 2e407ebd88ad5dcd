import Mathlib.Data.List.TakeWhile
import MyWebSocket.Library.RegexSyntax
import MyWebSocket.Http.Request

namespace MyWebSocket

open Regex (Re Cursor Token isWord isNewline)

/-!
# Route templates

`httpRouter::parse_path_to_regex`: the names are those of one scan of the template for
`:(\w+)`; the text of the regular expression comes from two replacements, of `:(\w+)\((.+?)\)`
by its second group and of `:(\w+)` by `([^/]+)`.
-/

/-! ### The two expressions -/

/-- `R"(:(\w+))"`. -/
def paramRe : Re UInt8 :=
  .seq (.set (· == 0x3A)) (.seq (.group 1 (.seq (.rep 1 none true (.set isWord)) .eps)) .eps)

/-- `R"(:(\w+)\((.+?)\))"`. -/
def paramWithRegexRe : Re UInt8 :=
  .seq (.set (· == 0x3A))
    (.seq (.group 1 (.seq (.rep 1 none true (.set isWord)) .eps))
      (.seq (.set (· == 0x28))
        (.seq (.group 2 (.seq (.rep 1 none false (.set fun c => !isNewline c)) .eps))
          (.seq (.set (· == 0x29)) .eps))))

theorem compile_paramRe : Regex.compile (str ":(\\w+)") = some (paramRe, 1) := rfl

theorem compile_paramWithRegexRe :
    Regex.compile (str ":(\\w+)\\((.+?)\\)") = some (paramWithRegexRe, 2) := rfl

/-- `std::regex_replace(s, param_with_regex_re, "($2)")`. -/
def replaceWithRegex (ts : List (Token UInt8)) : Bytes :=
  Regex.replaced (fun m => 0x28 :: m.cap 2 ++ [0x29]) ts

/-- `std::regex_replace(s, param_re, "([^/]+)")`. -/
def replaceParam (ts : List (Token UInt8)) : Bytes :=
  Regex.replaced (fun _ => str "([^/]+)") ts

/-- The first groups of the matches of an iterator. -/
def firstGroups (ts : List (Token UInt8)) : List Bytes :=
  (ts.filter Token.isHit).map (·.cap 1)

/-- `httpRouter::parse_path_to_regex`. -/
def parsePathToRegex (pathTemplate : Bytes) : Bytes × List Bytes :=
  let paramNames := firstGroups (Regex.tokens paramRe (.start pathTemplate))
  let regexStr := replaceWithRegex (Regex.tokens paramWithRegexRe (.start pathTemplate))
  let regexStr := replaceParam (Regex.tokens paramRe (.start regexStr))
  (0x5E :: regexStr ++ [0x24], paramNames)

/-! ### Where they match -/

/-- A colon with a character of a name behind it. -/
def startsParam : Bytes → Bool
  | [] => false
  | b :: s => b == 0x3A && s.head?.any isWord

/-- There is such a place in the text. -/
def hasParam : Bytes → Bool
  | [] => false
  | b :: s => startsParam (b :: s) || hasParam s

/-- Every colon of the text has a character in it behind itself that is of no name. -/
def inert : Bytes → Bool
  | [] => true
  | b :: s => (b != 0x3A || s.head?.any fun c => !isWord c) && inert s

theorem hasParam_of_not_mem {u : Bytes} (h : (0x3A : UInt8) ∉ u) : hasParam u = false := by
  induction u with
  | nil => rfl
  | cons b u ih =>
    rw [List.mem_cons, not_or] at h
    have hb : (b == 0x3A) = false := by
      rw [beq_eq_false_iff_ne]
      exact fun hb => h.1 hb.symm
    rw [hasParam, startsParam, hb, ih h.2]
    rfl

theorem inert_of_not_mem {u : Bytes} (h : (0x3A : UInt8) ∉ u) : inert u = true := by
  induction u with
  | nil => rfl
  | cons b u ih =>
    rw [List.mem_cons, not_or] at h
    rw [inert, ih h.2, Bool.and_true, Bool.or_eq_true]
    exact Or.inl (by simpa using fun hb => h.1 hb.symm)

/-- The text does not go on with a character of a name. -/
def EndsName (s : Bytes) : Prop := s.head?.any isWord = false

theorem takeWhile_name {name s : Bytes} (hname : ∀ b ∈ name, isWord b = true) (hs : EndsName s) :
    (name ++ s).takeWhile isWord = name := by
  rw [List.takeWhile_append_of_pos hname]
  cases s with
  | nil => simp
  | cons b s =>
    have hb : ¬ isWord b = true := by simpa [EndsName] using hs
    rw [List.takeWhile_cons_of_neg hb, List.append_nil]

theorem endsName_dropWhile (s : Bytes) : EndsName (s.dropWhile isWord) := by
  cases hdrop : s.dropWhile isWord with
  | nil => rfl
  | cons d r =>
    have hd := List.head_dropWhile_not (p := isWord) (l := s)
      (by rw [hdrop]; exact List.cons_ne_nil _ _)
    simp only [hdrop, List.head_cons] at hd
    simpa [EndsName] using hd

/-- Behind a colon the expressions capture the name. -/
theorem head?_exec_name {rest : Re UInt8}
    (hrest : ∀ d : Cursor UInt8, d.rest.takeWhile isWord ≠ [] →
      (Regex.exec (.seq (.group 1 (.seq (.rep 1 none true (.set isWord)) .eps)) rest) d).head? =
        (Regex.exec rest ((d.move (d.rest.takeWhile isWord).length).capture 1 d)).head?)
    {c : Cursor UInt8} (hc : c.caps = []) {name s : Bytes}
    (hcolon : c.rest = 0x3A :: (name ++ s)) (hne : name ≠ [])
    (hname : ∀ b ∈ name, isWord b = true) (hs : EndsName s) :
    ∃ d : Cursor UInt8, d.rest = s ∧ d.caps = [(1, name)] ∧
      (Regex.exec (.seq (.set (· == 0x3A))
        (.seq (.group 1 (.seq (.rep 1 none true (.set isWord)) .eps)) rest)) c).head? =
      (Regex.exec rest d).head? := by
  have hmove : (c.move 1).rest = name ++ s := by
    rw [Cursor.move_rest, hcolon, List.drop_one, List.tail_cons]
  have hrun : (c.move 1).rest.takeWhile isWord = name := by
    rw [hmove, takeWhile_name hname hs]
  refine ⟨((c.move 1).move name.length).capture 1 (c.move 1), ?_, ?_, ?_⟩
  · rw [Cursor.capture_rest, Cursor.move_rest, hmove, List.drop_left]
  · rw [Cursor.capture_caps, Cursor.move_caps, Cursor.move_caps, hc,
      Cursor.upTo_move _ (by rw [hmove]; simp), hmove, List.take_left]
  · rw [Regex.exec_seq_set hcolon, if_pos (by decide), hrest _ (by rw [hrun]; exact hne), hrun]

/-- Without a name behind a colon neither expression matches. -/
theorem exec_of_not_startsParam {rest : Re UInt8} {c : Cursor UInt8}
    (h : startsParam c.rest = false) :
    Regex.exec (.seq (.set (· == 0x3A))
      (.seq (.group 1 (.seq (.rep 1 none true (.set isWord)) .eps)) rest)) c = [] := by
  cases hcolon : c.rest with
  | nil => rw [Regex.exec_seq_set_nil hcolon]
  | cons b s =>
    rw [Regex.exec_seq_set hcolon]
    split
    · rename_i hb
      -- the repetition needs one character
      have hmove : (c.move 1).rest = s := by
        rw [Cursor.move_rest, hcolon, List.drop_one, List.tail_cons]
      have hs : s.takeWhile isWord = [] := by
        rw [hcolon] at h
        cases s with
        | nil => rfl
        | cons d s =>
          have hd : isWord d = false := by simpa [startsParam, hb] using h
          rw [List.takeWhile_cons_of_neg (by simp [hd])]
      rw [Regex.exec_captured, hmove, hs]
      rfl
    · rfl

/-- The rest of `paramWithRegexRe`, behind the name. -/
def customRe : Re UInt8 :=
  .seq (.set (· == 0x28))
    (.seq (.group 2 (.seq (.rep 1 none false (.set fun c => !isNewline c)) .eps))
      (.seq (.set (· == 0x29)) .eps))

theorem matchAt_of_not_startsParam {c : Cursor UInt8} (h : startsParam c.rest = false) :
    Regex.matchAt paramRe false c = none ∧ Regex.matchAt paramWithRegexRe false c = none := by
  have hfresh : startsParam c.fresh.rest = false := h
  rw [Regex.matchAt_false, Regex.matchAt_false, paramRe, paramWithRegexRe,
    exec_of_not_startsParam hfresh, exec_of_not_startsParam hfresh]
  exact ⟨rfl, rfl⟩

/-- `:(\w+)` matches a colon and the name behind it. -/
theorem matchAt_paramRe {c : Cursor UInt8} {name s : Bytes}
    (hcolon : c.rest = 0x3A :: (name ++ s)) (hne : name ≠ [])
    (hname : ∀ b ∈ name, isWord b = true) (hs : EndsName s) :
    ∃ d : Cursor UInt8, Regex.matchAt paramRe false c = some d ∧ d.rest = s ∧
      d.caps = [(1, name)] := by
  obtain ⟨d, hd, hcaps, hexec⟩ := head?_exec_name (c := c.fresh)
    (fun e he => Regex.head?_captured_eps isWord 1 he) rfl hcolon hne hname hs
  refine ⟨d, ?_, hd, hcaps⟩
  rw [Regex.matchAt_false, paramRe, hexec]
  rfl

/-- A text of at least one character, without a line end, up to the first closing parenthesis
    behind its first character. -/
structure Encloses (rest body s : Bytes) : Prop where
  eq : rest = body ++ 0x29 :: s
  ne : body ≠ []
  line : ∀ b ∈ body, isNewline b = false
  first : 0x29 ∉ body.tail

theorem head?_exec_close (d : Cursor UInt8) :
    (Regex.exec (.seq (.set (· == 0x29)) .eps) d).head? =
      if d.rest.head? = some 0x29 then some (d.move 1) else none := by
  cases hd : d.rest with
  | nil => rw [Regex.exec_seq_set_nil hd]; rfl
  | cons b s =>
    rw [Regex.exec_seq_set hd, List.head?_cons]
    by_cases hb : b = 0x29
    · rw [if_pos (by simp [hb]), if_pos (by simp [hb])]
      rfl
    · rw [if_neg (by simp [hb]), if_neg (by simp [hb])]
      rfl

/-- `(.+?)\)` takes as little as it can. -/
theorem head?_exec_lazy {c : Cursor UInt8} {body s : Bytes} (h : Encloses c.rest body s) :
    ∃ d : Cursor UInt8, d.rest = s ∧ d.caps = (2, body) :: c.caps ∧
      (Regex.exec (.seq (.group 2 (.seq (.rep 1 none false (.set fun c => !isNewline c)) .eps))
        (.seq (.set (· == 0x29)) .eps)) c).head? = some d := by
  have hbody : c.rest.take body.length = body := by rw [h.eq, List.take_left]
  have hrest : ((c.move body.length).capture 2 c).rest = 0x29 :: s := by
    rw [Cursor.capture_rest, Cursor.move_rest, h.eq, List.drop_left]
  refine ⟨((c.move body.length).capture 2 c).move 1, ?_, ?_, ?_⟩
  · rw [Cursor.move_rest, hrest, List.drop_one, List.tail_cons]
  · rw [Cursor.move_caps, Cursor.capture_caps, Cursor.upTo_move _ (by rw [h.eq]; simp), hbody,
      Cursor.move_caps]
  · obtain ⟨m, hm⟩ := Nat.exists_eq_succ_of_ne_zero (List.length_pos_iff.mpr h.ne).ne'
    have hrun : ∃ n, (c.rest.takeWhile fun c => !isNewline c).length = m + (n + 1) := by
      have hall : ∀ b ∈ body, (!isNewline b) = true := by
        intro b hb
        rw [h.line b hb]
        rfl
      rw [h.eq, List.takeWhile_append_of_pos hall, List.length_append, hm]
      exact ⟨((0x29 :: s).takeWhile fun c => !isNewline c).length, by omega⟩
    -- no closing parenthesis in front of the last character of the body
    have hbefore : ∀ j ∈ List.range' 1 m,
        (Regex.exec (.seq (.set (· == 0x29)) .eps) ((c.move j).capture 2 c)).head? = none := by
      intro j hj
      rw [List.mem_range'_1] at hj
      rw [head?_exec_close, if_neg]
      intro hclose
      rw [Cursor.capture_rest, Cursor.move_rest, h.eq, List.drop_append_of_le_length (by omega),
        List.head?_append_of_ne_nil _ (by simp; omega), List.head?_drop] at hclose
      obtain ⟨i, rfl⟩ := Nat.exists_eq_succ_of_ne_zero (by omega : j ≠ 0)
      refine h.first (List.mem_of_getElem? (i := i) ?_)
      rw [List.getElem?_tail]
      exact hclose
    obtain ⟨n, hn⟩ := hrun
    rw [Regex.head?_captured_lazy, hn, ← List.range'_append_1, List.findSome?_append,
      List.findSome?_eq_none_iff.mpr hbefore, Option.none_or, Nat.add_comm 1 m,
      List.range'_succ, List.findSome?_cons]
    rw [show m + 1 = body.length from hm.symm, head?_exec_close, hrest,
      if_pos List.head?_cons]

/-- And there is nothing to take where no parenthesis closes. -/
theorem head?_exec_lazy_eq_none {c : Cursor UInt8} (h : ∀ body s, ¬ Encloses c.rest body s) :
    (Regex.exec (.seq (.group 2 (.seq (.rep 1 none false (.set fun c => !isNewline c)) .eps))
        (.seq (.set (· == 0x29)) .eps)) c).head? = none := by
  rw [Regex.head?_captured_lazy, List.findSome?_eq_none_iff]
  intro j hj
  rw [List.mem_range'_1] at hj
  rw [head?_exec_close, if_neg]
  intro hclose
  rw [Cursor.capture_rest, Cursor.move_rest] at hclose
  obtain ⟨s, hs⟩ := List.head?_eq_some_iff.mp hclose
  -- the first closing parenthesis there is not behind this one
  have hsplit : c.rest = c.rest.take j ++ 0x29 :: s := by rw [← hs, List.take_append_drop]
  have hline : ∀ b ∈ c.rest.take j, isNewline b = false := by
    intro b hb
    have hmem : b ∈ c.rest.takeWhile fun c => !isNewline c := by
      have hprefix : c.rest.take j <+: c.rest.takeWhile fun c => !isNewline c := by
        exact List.prefix_of_prefix_length_le (List.take_prefix _ _)
          (List.takeWhile_prefix _) (by rw [List.length_take]; omega)
      exact hprefix.subset hb
    simpa using List.mem_takeWhile_imp hmem
  have hne : c.rest.take j ≠ [] := by
    intro hnil
    have hlen := congrArg List.length hnil
    have hle : (c.rest.takeWhile fun c => !isNewline c).length ≤ c.rest.length :=
      (List.takeWhile_prefix _).length_le
    rw [List.length_take, List.length_nil] at hlen
    omega
  cases hbody : c.rest.take j with
  | nil => exact hne hbody
  | cons x t =>
    rw [hbody] at hsplit hline
    by_cases hmem : (0x29 : UInt8) ∈ t
    · obtain ⟨t₁, t₂, ht, hfirst⟩ := List.eq_append_cons_of_mem hmem
      refine h (x :: t₁) (t₂ ++ 0x29 :: s) ⟨?_, List.cons_ne_nil _ _, ?_, hfirst⟩
      · rw [hsplit, ht]
        simp
      · intro b hb
        refine hline b ?_
        rw [ht]
        rcases List.mem_cons.mp hb with rfl | hb
        · exact List.mem_cons_self
        · exact List.mem_cons_of_mem _ (List.mem_append_left _ hb)
    · exact h (x :: t) s ⟨hsplit, List.cons_ne_nil _ _, hline, hmem⟩

/-- `\((.+?)\)` behind a name. -/
theorem head?_exec_customRe {d : Cursor UInt8} :
    (∀ body s, Encloses d.rest.tail body s → d.rest.head? = some 0x28 →
      ∃ e : Cursor UInt8, e.rest = s ∧ e.caps = (2, body) :: d.caps ∧
        (Regex.exec customRe d).head? = some e) ∧
    (d.rest.head? ≠ some 0x28 ∨ (∀ body s, ¬ Encloses d.rest.tail body s) →
      (Regex.exec customRe d).head? = none) := by
  cases hd : d.rest with
  | nil =>
    refine ⟨fun body s h => ?_, fun _ => ?_⟩
    · exact absurd h.eq (by simp)
    · rw [customRe, Regex.exec_seq_set_nil hd]
      rfl
  | cons b t =>
    have hmove : (d.move 1).rest = t := by
      rw [Cursor.move_rest, hd, List.drop_one, List.tail_cons]
    rw [customRe, Regex.exec_seq_set hd, List.tail_cons, List.head?_cons]
    constructor
    · intro body s h hb
      rw [if_pos (by simpa using hb)]
      rw [← hmove] at h
      exact head?_exec_lazy h
    · intro h
      split
      · rename_i hb
        refine head?_exec_lazy_eq_none ?_
        rw [hmove]
        exact h.resolve_left (by simpa using hb)
      · rfl

theorem head?_exec_name_customRe (d : Cursor UInt8) (hd : d.rest.takeWhile isWord ≠ []) :
    (Regex.exec (.seq (.group 1 (.seq (.rep 1 none true (.set isWord)) .eps)) customRe) d).head? =
      (Regex.exec customRe ((d.move (d.rest.takeWhile isWord).length).capture 1 d)).head? := by
  -- an opening parenthesis is not a character of a name
  have hstop : ∀ e : Cursor UInt8, e.rest.head?.any isWord = true →
      Regex.exec customRe e = [] := by
    intro e he
    cases hrest : e.rest with
    | nil => rw [customRe, Regex.exec_seq_set_nil hrest]
    | cons b t =>
      rw [hrest] at he
      have hb : (b == 0x28) = false := by
        rw [beq_eq_false_iff_ne]
        rintro rfl
        rw [List.head?_cons, Option.any_some] at he
        exact absurd he (by decide)
      rw [customRe, Regex.exec_seq_set hrest, hb]
      rfl
  rw [Regex.exec_captured_run hstop, if_neg hd]

/-- `:(\w+)\((.+?)\)` matches a name with an expression in parentheses behind it. -/
theorem matchAt_paramWithRegexRe {c : Cursor UInt8} {name rest body s : Bytes}
    (hcolon : c.rest = 0x3A :: (name ++ 0x28 :: rest)) (hne : name ≠ [])
    (hname : ∀ b ∈ name, isWord b = true) (h : Encloses rest body s) :
    ∃ d : Cursor UInt8, Regex.matchAt paramWithRegexRe false c = some d ∧ d.rest = s ∧
      d.caps = [(2, body), (1, name)] := by
  obtain ⟨d, hd, hcaps, hexec⟩ := head?_exec_name (c := c.fresh) head?_exec_name_customRe rfl
    hcolon hne hname (by simp [EndsName]; decide)
  obtain ⟨e, he, hecaps, hhead⟩ := head?_exec_customRe.1 body s (by rw [hd]; exact h)
    (by rw [hd]; rfl)
  refine ⟨e, ?_, he, by rw [hecaps, hcaps]⟩
  rw [Regex.matchAt_false, paramWithRegexRe]
  exact hexec.trans hhead

/-- And nothing else. -/
theorem matchAt_paramWithRegexRe_eq_none {c : Cursor UInt8} {name s : Bytes}
    (hcolon : c.rest = 0x3A :: (name ++ s)) (hne : name ≠ [])
    (hname : ∀ b ∈ name, isWord b = true) (hs : EndsName s)
    (h : s.head? ≠ some 0x28 ∨ ∀ body s', ¬ Encloses s.tail body s') :
    Regex.matchAt paramWithRegexRe false c = none := by
  obtain ⟨d, hd, -, hexec⟩ := head?_exec_name (c := c.fresh) head?_exec_name_customRe rfl
    hcolon hne hname hs
  rw [Regex.matchAt_false, paramWithRegexRe]
  refine hexec.trans (head?_exec_customRe.2 ?_)
  rw [hd]
  exact h

/-! ### What the scans make of a text -/

/-- The template after the first replacement, from a place on. -/
def stripped (c : Cursor UInt8) : Bytes := replaceWithRegex (Regex.tokens paramWithRegexRe c)

/-- The text after the second replacement, from a place on. -/
def filled (c : Cursor UInt8) : Bytes := replaceParam (Regex.tokens paramRe c)

/-- The names, from a place on. -/
def namesFrom (c : Cursor UInt8) : List Bytes := firstGroups (Regex.tokens paramRe c)

theorem tokens_inert {re : Re UInt8}
    (hre : ∀ c : Cursor UInt8, startsParam c.rest = false → Regex.matchAt re false c = none) :
    ∀ {u s : Bytes} {c : Cursor UInt8}, c.rest = u ++ s → inert u = true →
      Regex.tokens re c = u.map Token.plain ++ Regex.tokens re (c.move u.length) := by
  intro u
  induction u with
  | nil =>
    intro s c _ _
    rw [List.length_nil, Cursor.move_zero]
    rfl
  | cons b u ih =>
    intro s c hrest hu
    rw [inert, Bool.and_eq_true] at hu
    have hmove : (c.move 1).rest = u ++ s := by
      rw [Cursor.move_rest, hrest, List.cons_append, List.drop_one, List.tail_cons]
    have hstarts : startsParam c.rest = false := by
      rw [hrest, List.cons_append, startsParam]
      by_cases hb : b = 0x3A
      · cases u with
        | nil => simp [hb] at hu
        | cons d u => simpa [hb] using hu.1
      · simp [hb]
    rw [Regex.tokens_plain (hre c hstarts) hrest, ih hmove hu.2, Cursor.move_move,
      Nat.add_comm 1]
    rfl

theorem stripped_inert {u s : Bytes} {c : Cursor UInt8} (hrest : c.rest = u ++ s)
    (hu : inert u = true) : stripped c = u ++ stripped (c.move u.length) := by
  rw [stripped, tokens_inert (fun c h => (matchAt_of_not_startsParam h).2) hrest hu]
  simp [stripped, replaceWithRegex, Regex.replaced, List.flatMap_map]

theorem filled_inert {u s : Bytes} {c : Cursor UInt8} (hrest : c.rest = u ++ s)
    (hu : inert u = true) : filled c = u ++ filled (c.move u.length) := by
  rw [filled, tokens_inert (fun c h => (matchAt_of_not_startsParam h).1) hrest hu]
  simp [filled, replaceParam, Regex.replaced, List.flatMap_map]

theorem namesFrom_plain {c : Cursor UInt8} {b : UInt8} {s : Bytes} (hrest : c.rest = b :: s)
    (h : startsParam c.rest = false) : namesFrom c = namesFrom (c.move 1) := by
  rw [namesFrom, Regex.tokens_plain (matchAt_of_not_startsParam h).1 hrest]
  rfl

theorem namesFrom_nil {c : Cursor UInt8} (hrest : c.rest = []) : namesFrom c = [] := by
  have h : startsParam c.rest = false := by rw [hrest]; rfl
  rw [namesFrom, Regex.tokens_nil (matchAt_of_not_startsParam h).1 hrest]
  rfl

theorem filled_nil {c : Cursor UInt8} (hrest : c.rest = []) : filled c = [] := by
  have h : startsParam c.rest = false := by rw [hrest]; rfl
  rw [filled, Regex.tokens_nil (matchAt_of_not_startsParam h).1 hrest]
  rfl

theorem stripped_nil {c : Cursor UInt8} (hrest : c.rest = []) : stripped c = [] := by
  have h : startsParam c.rest = false := by rw [hrest]; rfl
  rw [stripped, Regex.tokens_nil (matchAt_of_not_startsParam h).2 hrest]
  rfl

/-- A name is scanned and replaced. -/
theorem param_hit {c : Cursor UInt8} {name s : Bytes}
    (hcolon : c.rest = 0x3A :: (name ++ s)) (hne : name ≠ [])
    (hname : ∀ b ∈ name, isWord b = true) (hs : EndsName s) :
    ∃ d : Cursor UInt8, d.rest = s ∧ namesFrom c = name :: namesFrom d ∧
      filled c = str "([^/]+)" ++ filled d := by
  obtain ⟨d, hmatch, hd, hcaps⟩ := matchAt_paramRe hcolon hne hname hs
  have hlt : d.rest.length < c.rest.length := by
    rw [hd, hcolon, List.length_cons, List.length_append]
    omega
  have htokens := Regex.tokens_hit hmatch hlt
  refine ⟨d, hd, ?_, ?_⟩
  · rw [namesFrom, htokens, hcaps]
    rfl
  · rw [filled, htokens]
    rfl

/-- A name with an expression in parentheses keeps only these. -/
theorem stripped_hit {c : Cursor UInt8} {name rest body s : Bytes}
    (hcolon : c.rest = 0x3A :: (name ++ 0x28 :: rest)) (hne : name ≠ [])
    (hname : ∀ b ∈ name, isWord b = true) (h : Encloses rest body s) :
    ∃ d : Cursor UInt8, d.rest = s ∧ stripped c = 0x28 :: body ++ 0x29 :: stripped d := by
  obtain ⟨d, hmatch, hd, hcaps⟩ := matchAt_paramWithRegexRe hcolon hne hname h
  have hlt : d.rest.length < c.rest.length := by
    rw [hd, hcolon, h.eq, List.length_cons, List.length_append, List.length_cons,
      List.length_append, List.length_cons]
    omega
  have htokens := Regex.tokens_hit hmatch hlt
  refine ⟨d, hd, ?_⟩
  rw [stripped, htokens, hcaps]
  simp [stripped, replaceWithRegex, Regex.replaced, Token.cap]

/-- Elsewhere the text stays. -/
theorem stripped_plain {c : Cursor UInt8} {b : UInt8} {s : Bytes}
    (h : Regex.matchAt paramWithRegexRe false c = none) (hrest : c.rest = b :: s) :
    stripped c = b :: stripped (c.move 1) := by
  rw [stripped, Regex.tokens_plain h hrest]
  rfl

/-- The names in front of a place where no name goes on. -/
theorem namesFrom_append (r : Bytes) : ∀ {s : Bytes} {c : Cursor UInt8}, c.rest = r ++ s →
    EndsName s → ∃ (e : List Bytes) (d : Cursor UInt8), d.rest = s ∧
      namesFrom c = e ++ namesFrom d ∧ (e = [] ↔ hasParam r = false) := by
  induction hn : r.length using Nat.strong_induction_on generalizing r with
  | _ n ih =>
    intro s c hrest hs
    cases r with
    | nil => exact ⟨[], c, hrest, rfl, by simp [hasParam]⟩
    | cons b r =>
      by_cases hb : startsParam (b :: r) = true
      · -- a colon, a name and the rest of the text
        have hcolon : b = 0x3A ∧ r.head?.any isWord = true := by
          simpa [startsParam] using hb
        have hr : r = r.takeWhile isWord ++ r.dropWhile isWord :=
          List.takeWhile_append_dropWhile.symm
        have hne : r.takeWhile isWord ≠ [] := by
          cases r with
          | nil => simp at hcolon
          | cons d r =>
            have hd : isWord d = true := by simpa using hcolon.2
            rw [List.takeWhile_cons_of_pos hd]
            exact List.cons_ne_nil _ _
        have hends : EndsName (r.dropWhile isWord ++ s) := by
          have hdrop := endsName_dropWhile r
          cases hr' : r.dropWhile isWord with
          | nil => exact hs
          | cons d r' =>
            rw [hr'] at hdrop
            exact hdrop
        have hsplit : c.rest = 0x3A :: (r.takeWhile isWord ++ (r.dropWhile isWord ++ s)) := by
          rw [hrest, hcolon.1, ← List.append_assoc, ← hr]
          rfl
        obtain ⟨d, hd, hnames, -⟩ := param_hit hsplit hne
          (fun x hx => List.mem_takeWhile_imp hx) hends
        have hlen : (r.dropWhile isWord).length < n := by
          rw [← hn, List.length_cons]
          exact Nat.lt_succ_of_le (List.dropWhile_suffix _).length_le
        obtain ⟨e, d', hd', he, -⟩ := ih _ hlen _ rfl hd hs
        refine ⟨r.takeWhile isWord :: e, d', hd', by rw [hnames, he]; rfl, ?_⟩
        rw [hasParam, hb]
        simp
      · rw [Bool.not_eq_true] at hb
        have hstarts : startsParam c.rest = false := by
          rw [hrest]
          cases r with
          | nil =>
            have hs' : s.head?.any isWord = false := hs
            rw [List.singleton_append, startsParam, hs', Bool.and_false]
          | cons d r => exact hb
        have hmove : (c.move 1).rest = r ++ s := by
          rw [Cursor.move_rest, hrest, List.cons_append, List.drop_one, List.tail_cons]
        obtain ⟨e, d, hd, he, hiff⟩ := ih r.length (by rw [← hn]; simp) r rfl hmove hs
        refine ⟨e, d, hd, ?_, ?_⟩
        · rw [namesFrom_plain hrest hstarts, he]
        · rw [hiff, hasParam, hb, Bool.false_or]

end MyWebSocket
