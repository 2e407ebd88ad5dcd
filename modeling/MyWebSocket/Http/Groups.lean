import MyWebSocket.Http.Parameters

namespace MyWebSocket

open Regex (Cursor Lex isWord isNewline)

/-!
# The groups of a template

What `parse_path_to_regex` should make of a template: the names in order, and a text in which the
parameters are replaced one by one, so that the parenthesis of the `k`-th parameter opens the group
the `k`-th name is paired with.

The scans know nothing of parentheses and groups, so this is not what always comes out;
`parsed_rightly_iff` says when it does.
-/

/-- The parenthesis between `pre` and `post` opens group `n`. -/
def OpensGroup (n : Nat) (pre post : Bytes) : Prop :=
  (Lex.plain.read (pre ++ [0x28])).1 = .opened ∧ (Lex.plain.read (pre ++ [0x28])).2 + 1 = n ∧
    post.head? ≠ some 0x3F

/-- The names in order, each parameter replaced and nothing else, and the `k`-th parameter in
    group `k`. -/
structure Template.ParsedRightly (t : Template) : Prop where
  names : (parsePathToRegex t.text).2 = t.params.map Param.name
  text : (parsePathToRegex t.text).1 =
    0x5E :: (t.lead ++ t.params.flatMap Param.expected) ++ [0x24]
  groups : ∀ before p behind, t.params = before ++ p :: behind →
    OpensGroup (before.length + 1) (0x5E :: (t.lead ++ before.flatMap Param.expected))
      (p.pattern ++ 0x29 :: (p.after ++ behind.flatMap Param.expected))

/-! ### The condition -/

/-- A closing parenthesis comes before any line end and before the next `:name(R)`. -/
def closesBefore : List Param → Bytes → Bool
  | [], lit => lit.find? (fun b => b == 0x29 || isNewline b) == some 0x29
  | p :: ps, lit =>
    match lit.find? fun b => b == 0x29 || isNewline b with
    | some b => b == 0x29
    | none => p.custom.isNone && closesBefore ps p.after

/-- The first replacement finds the end of the expression: no line end comes before the first
    closing parenthesis behind its first character, and where it is empty there is one. -/
def findsEnd (p : Param) (ps : List Param) : Bool :=
  match p.custom with
  | none => true
  | some [] => closesBefore ps p.after
  | some (x :: r) => (x :: r.takeWhile (· != 0x29)).all fun b => !isNewline b

/-- Every expression of the template is found. -/
def findsEnds : List Param → Bool
  | [] => true
  | p :: ps => findsEnd p ps && findsEnds ps

/-- The text opens no capture group and ends outside escapes and brackets. -/
def quiet (u : Bytes) : Bool := Lex.plain.read u == (.plain, 0)

/-- Up to the last parameter no other group is opened, and none of the parameters makes its
    parenthesis one of another kind; `u` is the text since the last parameter. -/
def onlyGroups : Bytes → List Param → Bool
  | _, [] => true
  | u, p :: ps =>
    quiet u && p.pattern.head? != some 0x3F && onlyGroups (p.pattern ++ 0x29 :: p.after) ps

/-! ### The text -/

namespace Param

/-- The parameter after the first replacement: marked where it was found. -/
def marked (m : Param × Bool) : Bytes := if m.2 then m.1.customText ++ m.1.after else m.1.text

/-- And after the second one. -/
def replaced (m : Param × Bool) : Bytes :=
  (if m.2 then [] else str "([^/]+)") ++ (m.1.customText ++ m.1.after)

/-- Only parameters with an expression are marked. -/
def MarksCustom (ms : List (Param × Bool)) : Prop := ∀ m ∈ ms, m.2 = true → m.1.custom.isSome

theorem endsName_marked {ms : List (Param × Bool)} (h : MarksCustom ms) :
    EndsName (ms.flatMap marked) := by
  cases ms with
  | nil => rfl
  | cons m ms =>
    rw [List.flatMap_cons, marked]
    split
    · rename_i hm
      obtain ⟨r, hr⟩ := Option.isSome_iff_exists.mp (h m List.mem_cons_self hm)
      rw [customText, hr]
      show Option.any isWord (some 0x28) = false
      rfl
    · show Option.any isWord (some 0x3A) = false
      rfl

/-- The second replacement puts `([^/]+)` for what the first one has left. -/
theorem filled_marked (ms : List (Param × Bool)) : ∀ {u : Bytes} {c : Cursor UInt8},
    c.rest = u ++ ms.flatMap marked → inert u = true → MarksCustom ms →
    (∀ m ∈ ms, ∀ r ∈ m.1.custom, hasParam r = false) →
    filled c = u ++ ms.flatMap replaced := by
  induction ms with
  | nil =>
    intro u c hrest hu _ _
    rw [filled_inert hrest hu, filled_nil (by rw [Cursor.move_rest, hrest, List.drop_left]; rfl)]
    rfl
  | cons m ms ih =>
    intro u c hrest hu hmarks hcustom
    have hmarks' : MarksCustom ms := fun m' hm' => hmarks m' (List.mem_cons_of_mem _ hm')
    have hcustom' : ∀ m' ∈ ms, ∀ r ∈ m'.1.custom, hasParam r = false :=
      fun m' hm' => hcustom m' (List.mem_cons_of_mem _ hm')
    have hinert := m.1.inert_custom (hcustom m List.mem_cons_self)
    rw [List.flatMap_cons, marked] at hrest
    rw [List.flatMap_cons, replaced]
    by_cases hm : m.2 = true
    · rw [if_pos hm, ← List.append_assoc] at hrest
      rw [if_pos hm, ih hrest (inert_append hu hinert) hmarks' hcustom']
      simp
    · rw [if_neg hm] at hrest
      have hcolon : (c.move u.length).rest =
          0x3A :: (m.1.name ++ (m.1.customText ++ (m.1.after ++ ms.flatMap marked))) := by
        rw [Cursor.move_rest, hrest, List.drop_left, Param.text]
        simp
      obtain ⟨d, hd, -, hfilled⟩ := param_hit hcolon m.1.name_ne m.1.name_word
        (m.1.endsName (endsName_marked hmarks'))
      rw [← List.append_assoc] at hd
      rw [if_neg hm, filled_inert hrest hu, hfilled, ih hd hinert hmarks' hcustom']
      simp

/-- The text is right where every expression was found. -/
theorem replaced_iff {ms : List (Param × Bool)} (h : MarksCustom ms) :
    ms.flatMap replaced = (ms.map Prod.fst).flatMap expected ↔
      ∀ m ∈ ms, m.2 = m.1.custom.isSome := by
  -- an expression that was not found leaves seven characters too many
  have hright : ∀ m : Param × Bool, m.2 = m.1.custom.isSome → replaced m = m.1.expected := by
    intro m hm
    cases hcustom : m.1.custom with
    | none =>
      rw [hcustom] at hm
      simp [replaced, expected, pattern, customText, hcustom, hm]
      rfl
    | some r =>
      rw [hcustom] at hm
      simp [replaced, expected, pattern, customText, hcustom, hm]
  have hwrong : ∀ m : Param × Bool, m.2 = false → m.1.custom.isSome = true →
      (replaced m).length = m.1.expected.length + 7 := by
    intro m hm hsome
    obtain ⟨r, hr⟩ := Option.isSome_iff_exists.mp hsome
    have hseven : (str "([^/]+)").length = 7 := rfl
    simp [replaced, expected, pattern, customText, hr, hm, hseven]
    omega
  have hcases : ∀ m ∈ ms, m.2 = m.1.custom.isSome ∨ (m.2 = false ∧ m.1.custom.isSome = true) := by
    intro m hm
    cases hmark : m.2 with
    | true => exact Or.inl (h m hm hmark).symm
    | false =>
      cases hsome : m.1.custom.isSome with
      | true => exact Or.inr ⟨rfl, rfl⟩
      | false => exact Or.inl rfl
  rw [List.flatMap_map]
  constructor
  · intro htext m hm
    rcases hcases m hm with heq | ⟨hmark, hsome⟩
    · exact heq
    · have hlen := length_eq_of_flatMap_eq htext (fun m' hm' => by
        rcases hcases m' hm' with heq | ⟨hmark, hsome⟩
        · rw [hright m' heq]
        · rw [hwrong m' hmark hsome]
          omega) m hm
      rw [hwrong m hmark hsome] at hlen
      omega
  · intro hall
    exact List.flatMap_congr fun m hm => hright m (hall m hm)

end Param

/-! ### Where the first replacement ends -/

theorem takeWhile_ne {b : UInt8} {a s : Bytes} (h : b ∉ a) :
    (a ++ b :: s).takeWhile (· != b) = a := by
  rw [List.takeWhile_append_of_pos, List.takeWhile_cons_of_neg (by simp), List.append_nil]
  intro x hx
  rw [bne_iff_ne]
  rintro rfl
  exact h hx

/-- The first closing parenthesis splits a text in one way. -/
theorem split_unique {b : UInt8} {a a' s s' : Bytes} (h : a ++ b :: s = a' ++ b :: s')
    (ha : b ∉ a) (ha' : b ∉ a') : a = a' ∧ s = s' := by
  have heq : a = a' := by rw [← takeWhile_ne ha, h, takeWhile_ne ha']
  rw [heq] at h
  exact ⟨heq, (List.cons.inj (List.append_cancel_left h)).2⟩

/-- A byte behind two texts is in the first or behind it. -/
theorem split_at {b : UInt8} {a x w s : Bytes} (h : a ++ x = w ++ b :: s) :
    (∃ w', w = a ++ w' ∧ x = w' ++ b :: s) ∨ ∃ v, a = w ++ b :: v ∧ s = v ++ x := by
  rcases List.append_eq_append_iff.mp h with ⟨w', hw, hx⟩ | ⟨w', hw, hx⟩
  · exact Or.inl ⟨w', hw, hx⟩
  · cases w' with
    | nil =>
      rw [List.append_nil] at hw
      exact Or.inl ⟨[], by rw [hw, List.append_nil], hx.symm⟩
    | cons d v =>
      obtain ⟨rfl, hs⟩ := List.cons.inj hx
      exact Or.inr ⟨v, hw, hs⟩

/-- The text holds neither a closing parenthesis nor a line end. -/
def Open (u : Bytes) : Prop := (0x29 : UInt8) ∉ u ∧ ∀ b ∈ u, isNewline b = false

theorem find?_of_open {u : Bytes} (h : Open u) :
    u.find? (fun b => b == 0x29 || isNewline b) = none := by
  rw [List.find?_eq_none]
  intro b hb
  have hne : b ≠ 0x29 := by
    rintro rfl
    exact h.1 hb
  rw [h.2 b hb, Bool.or_false, beq_iff_eq]
  exact hne

theorem find?_of_open_append {u s : Bytes} (h : Open u) :
    (u ++ 0x29 :: s).find? (fun b => b == 0x29 || isNewline b) = some 0x29 := by
  rw [List.find?_append, find?_of_open h]
  rfl

theorem open_append {u v : Bytes} : Open (u ++ v) ↔ Open u ∧ Open v := by
  simp only [Open, List.mem_append, not_or]
  constructor
  · intro h
    exact ⟨⟨h.1.1, fun b hb => h.2 b (Or.inl hb)⟩, ⟨h.1.2, fun b hb => h.2 b (Or.inr hb)⟩⟩
  · intro h
    exact ⟨⟨h.1.1, h.2.1⟩, fun b hb => hb.elim (h.1.2 b) (h.2.2 b)⟩

/-- Behind an open text the first closing parenthesis is in what follows. -/
theorem split_open {a x w s : Bytes} (ha : Open a) (h : a ++ x = w ++ 0x29 :: s) :
    ∃ w', w = a ++ w' ∧ x = w' ++ 0x29 :: s := by
  rcases split_at h with hx | ⟨v, hv, -⟩
  · exact hx
  · exact absurd (by rw [hv]; simp) ha.1

theorem Param.open_name (p : Param) : Open (0x3A :: p.name) := by
  have hword : ∀ b : UInt8, isWord b = true → b ≠ 0x29 ∧ isNewline b = false := by
    intro b hb
    constructor
    · rintro rfl
      exact absurd hb (by decide)
    · rw [isNewline, Bool.or_eq_false_iff, beq_eq_false_iff_ne, beq_eq_false_iff_ne]
      constructor <;> rintro rfl <;> exact absurd hb (by decide)
  refine ⟨?_, ?_⟩
  · intro h
    rcases List.mem_cons.mp h with h | h
    · exact absurd h (by decide)
    · exact (hword _ (p.name_word _ h)).1 rfl
  · intro b hb
    rcases List.mem_cons.mp hb with rfl | hb
    · decide
    · exact (hword b (p.name_word b hb)).2

/-- The first closing parenthesis behind `lit` is in `lit`, in the literal text behind some plain
    parameters, or in the first expression. -/
theorem closesBefore_split (ps : List Param) : ∀ {lit u s : Bytes},
    lit ++ ps.flatMap Param.text = u ++ 0x29 :: s → Open u → inert lit = true →
    (∀ p ∈ ps, ∀ r ∈ p.custom, hasParam r = false) →
    ∃ (ps₁ ps₂ : List Param) (v : Bytes), ps = ps₁ ++ ps₂ ∧
      lit ++ ps₁.flatMap Param.text = u ++ 0x29 :: v ∧ s = v ++ ps₂.flatMap Param.text ∧
      inert v = true ∧ (closesBefore ps lit = true ↔ ∀ q ∈ ps₁, q.custom = none) := by
  induction ps with
  | nil =>
    intro lit u s h hopen hlit _
    rw [List.flatMap_nil, List.append_nil] at h
    refine ⟨[], [], s, rfl, by simpa using h, by simp, ?_, ?_⟩
    · rw [h] at hlit
      exact inert_of_append (u := u ++ [0x29]) (by simpa using hlit)
    · rw [closesBefore, h, find?_of_open_append hopen]
      simp
  | cons p ps ih =>
    intro lit u s h hopen hlit hcustom
    have hcustom' : ∀ q ∈ ps, ∀ r ∈ q.custom, hasParam r = false :=
      fun q hq => hcustom q (List.mem_cons_of_mem _ hq)
    rw [List.flatMap_cons] at h
    rcases split_at h with ⟨w, hw, hrest⟩ | ⟨v, hlit', hs⟩
    · -- not in `lit`
      rw [hw, open_append] at hopen
      have hnone := find?_of_open hopen.1
      have hname : (0x3A :: p.name) ++ ((p.customText ++ p.after) ++ ps.flatMap Param.text) =
          w ++ 0x29 :: s := by
        rw [← hrest, Param.text]
        simp
      obtain ⟨w', hw', hrest'⟩ := split_open p.open_name hname
      rw [hw', open_append] at hopen
      cases hp : p.custom with
      | none =>
        -- nor in this parameter
        have htext : p.customText = [] := by
          rw [Param.customText, hp]
          rfl
        rw [htext, List.nil_append] at hrest'
        obtain ⟨ps₁, ps₂, v, hps, hpre, hs, hv, hiff⟩ :=
          ih hrest' hopen.2.2 p.inert_after hcustom'
        refine ⟨p :: ps₁, ps₂, v, by rw [hps]; rfl, ?_, hs, hv, ?_⟩
        · rw [List.flatMap_cons, Param.text, htext, hw, hw', List.nil_append]
          have happend : lit ++ (0x3A :: (p.name ++ p.after) ++ ps₁.flatMap Param.text) =
              lit ++ (0x3A :: p.name) ++ (p.after ++ ps₁.flatMap Param.text) := by simp
          rw [happend, hpre]
          simp
        · rw [closesBefore, hnone]
          simp [hp, hiff]
      | some r =>
        -- in its expression, where there is one
        have hmem : (0x29 : UInt8) ∈ p.customText ++ p.after := by
          rw [Param.customText, hp]
          simp
        rcases split_at hrest' with ⟨x, hx, -⟩ | ⟨v, hv, hs⟩
        · refine absurd ?_ hopen.2.2.1
          rw [hx]
          exact List.mem_append_left _ hmem
        · refine ⟨[p], ps, v, rfl, ?_, hs, ?_, ?_⟩
          · rw [List.flatMap_singleton, Param.text, hw, hw', hv]
            simp
          · have hinert := p.inert_custom (hcustom p List.mem_cons_self)
            rw [hv] at hinert
            exact inert_of_append (u := w' ++ [0x29]) (by simpa using hinert)
          · rw [closesBefore, hnone]
            simp [hp]
    · -- in `lit`
      refine ⟨[], p :: ps, v, rfl, ?_, ?_, ?_, ?_⟩
      · rw [List.flatMap_nil, List.append_nil, hlit']
      · rw [hs, List.flatMap_cons]
      · rw [hlit'] at hlit
        exact inert_of_append (u := u ++ [0x29]) (by simpa using hlit)
      · rw [closesBefore, hlit', find?_of_open_append hopen]
        simp

/-- Where the condition holds there is such a parenthesis. -/
theorem exists_of_closesBefore (ps : List Param) : ∀ {lit : Bytes},
    closesBefore ps lit = true →
    ∃ u s, lit ++ ps.flatMap Param.text = u ++ 0x29 :: s ∧ Open u := by
  have hfound : ∀ {lit : Bytes}, lit.find? (fun b => b == 0x29 || isNewline b) = some 0x29 →
      ∃ u s, lit = u ++ 0x29 :: s ∧ Open u := by
    intro lit h
    obtain ⟨-, u, s, hlit, hu⟩ := List.find?_eq_some_iff_append.mp h
    refine ⟨u, s, hlit, ?_, ?_⟩
    · intro hmem
      exact absurd (hu _ hmem) (by decide)
    · intro b hb
      have hb' := hu b hb
      rw [Bool.not_eq_true', Bool.or_eq_false_iff] at hb'
      exact hb'.2
  induction ps with
  | nil =>
    intro lit h
    obtain ⟨u, s, hlit, hu⟩ := hfound (by simpa [closesBefore] using h)
    exact ⟨u, s, by simpa using hlit, hu⟩
  | cons p ps ih =>
    intro lit h
    rw [closesBefore] at h
    split at h
    · rename_i b hb
      rw [beq_iff_eq] at h
      rw [h] at hb
      obtain ⟨u, s, hlit, hu⟩ := hfound hb
      exact ⟨u, s ++ (p :: ps).flatMap Param.text, by rw [hlit]; simp, hu⟩
    · rename_i hnone
      rw [Bool.and_eq_true, Option.isNone_iff_eq_none] at h
      obtain ⟨u, s, hafter, hu⟩ := ih h.2
      have hlit : Open lit := by
        rw [List.find?_eq_none] at hnone
        refine ⟨fun hmem => absurd (hnone _ hmem) (by decide), fun b hb => ?_⟩
        have hb' := hnone b hb
        rw [Bool.not_eq_true, Bool.or_eq_false_iff] at hb'
        exact hb'.2
      refine ⟨lit ++ ((0x3A :: p.name) ++ u), s, ?_, ?_⟩
      · have htext : p.text = (0x3A :: p.name) ++ p.after := by
          rw [Param.text, Param.customText, h.1]
          rfl
        rw [List.flatMap_cons, htext, List.append_assoc (0x3A :: p.name), hafter]
        simp
      · exact open_append.mpr ⟨hlit, open_append.mpr ⟨p.open_name, hu⟩⟩

/-! ### The first replacement -/

theorem findsEnds_append {ps₁ ps₂ : List Param} (h : ∀ q ∈ ps₁, q.custom = none) :
    findsEnds (ps₁ ++ ps₂) = findsEnds ps₂ := by
  induction ps₁ with
  | nil => rfl
  | cons q ps₁ ih =>
    rw [List.cons_append, findsEnds, findsEnd, h q List.mem_cons_self, Bool.true_and]
    exact ih fun q' hq' => h q' (List.mem_cons_of_mem _ hq')

/-- Behind the first character of an expression that is not empty, its parenthesis is closed or
    a line ends. -/
theorem closes_expression {x : UInt8} {r s : Bytes} :
    ∃ u v, r ++ [0x29] = u ++ 0x29 :: v ∧ r.takeWhile (· != 0x29) = u ∧
      ((x :: u).all (fun b => !isNewline b) = true →
        Encloses (x :: r ++ 0x29 :: s) (x :: u) (v ++ s)) ∧
      (∀ body s', Encloses (x :: r ++ 0x29 :: s) body s' →
        (x :: u).all (fun b => !isNewline b) = true) := by
  obtain ⟨u, v, huv, hu⟩ := List.eq_append_cons_of_mem (show (0x29 : UInt8) ∈ r ++ [0x29] by simp)
  have htake : r.takeWhile (· != 0x29) = u := by
    have hclosed : (r ++ [0x29]).takeWhile (· != 0x29) = r.takeWhile (· != 0x29) := by
      by_cases hr : (0x29 : UInt8) ∈ r
      · obtain ⟨a, b, hab, ha⟩ := List.eq_append_cons_of_mem hr
        rw [hab, List.append_assoc, List.cons_append, takeWhile_ne ha, takeWhile_ne ha]
      · rw [takeWhile_ne hr, List.takeWhile_eq_self_iff.mpr]
        intro b hb
        rw [bne_iff_ne]
        rintro rfl
        exact hr hb
    rw [← hclosed, huv, takeWhile_ne hu]
  have hsplit : x :: r ++ 0x29 :: s = x :: u ++ 0x29 :: (v ++ s) := by
    have happend : r ++ 0x29 :: s = (r ++ [0x29]) ++ s := by simp
    rw [List.cons_append, happend, huv]
    simp
  refine ⟨u, v, huv, htake, ?_, ?_⟩
  · intro hall
    refine ⟨hsplit, List.cons_ne_nil _ _, ?_, hu⟩
    intro b hb
    simpa using List.all_eq_true.mp hall b hb
  · intro body s' h
    cases hbody : body with
    | nil => exact absurd hbody h.ne
    | cons y w =>
      have heq := h.eq
      rw [hsplit, hbody] at heq
      obtain ⟨rfl, htail⟩ := List.cons.inj heq
      have hfirst := h.first
      rw [hbody] at hfirst
      obtain ⟨rfl, -⟩ := split_unique htail hu hfirst
      rw [List.all_eq_true]
      intro b hb
      rw [h.line b (by rw [hbody]; exact hb)]
      rfl

/-- The first replacement finds the expressions the condition says, and changes nothing else. -/
theorem stripped_params (ps : List Param) : ∀ {u : Bytes} {c : Cursor UInt8},
    c.rest = u ++ ps.flatMap Param.text → inert u = true →
    (∀ p ∈ ps, ∀ r ∈ p.custom, hasParam r = false) →
    ∃ ms : List (Param × Bool), ms.map Prod.fst = ps ∧ Param.MarksCustom ms ∧
      stripped c = u ++ ms.flatMap Param.marked ∧
      ((∀ m ∈ ms, m.2 = m.1.custom.isSome) ↔ findsEnds ps = true) := by
  induction hn : ps.length using Nat.strong_induction_on generalizing ps with
  | _ n ih =>
    intro u c hrest hu hcustom
    have hd : (c.move u.length).rest = ps.flatMap Param.text := by
      rw [Cursor.move_rest, hrest, List.drop_left]
    rw [stripped_inert hrest hu]
    cases ps with
    | nil =>
      refine ⟨[], rfl, by simp [Param.MarksCustom], ?_, by simp [findsEnds]⟩
      rw [stripped_nil hd]
      rfl
    | cons p ps =>
      have hcustom' : ∀ q ∈ ps, ∀ r ∈ q.custom, hasParam r = false :=
        fun q hq => hcustom q (List.mem_cons_of_mem _ hq)
      have hlen : ps.length < n := by
        rw [← hn, List.length_cons]
        omega
      have hcolon : (c.move u.length).rest =
          0x3A :: (p.name ++ (p.customText ++ (p.after ++ ps.flatMap Param.text))) := by
        rw [hd, List.flatMap_cons, Param.text]
        simp
      -- what follows where nothing is found
      have hkept : Regex.matchAt paramWithRegexRe false (c.move u.length) = none →
          (findsEnd p ps = true ↔ p.custom = none) →
          ∃ ms : List (Param × Bool), ms.map Prod.fst = p :: ps ∧ Param.MarksCustom ms ∧
            u ++ stripped (c.move u.length) = u ++ ms.flatMap Param.marked ∧
            ((∀ m ∈ ms, m.2 = m.1.custom.isSome) ↔ findsEnds (p :: ps) = true) := by
        intro hnone hfinds
        have hmove : ((c.move u.length).move 1).rest =
            (p.name ++ (p.customText ++ p.after)) ++ ps.flatMap Param.text := by
          rw [Cursor.move_rest, hcolon, List.drop_one, List.tail_cons]
          simp
        obtain ⟨ms, hms, hmarks, hstripped, hiff⟩ := ih _ hlen _ rfl hmove
          (inert_append p.inert_name (p.inert_custom (hcustom p List.mem_cons_self))) hcustom'
        refine ⟨(p, false) :: ms, by rw [List.map_cons, hms], ?_, ?_, ?_⟩
        · intro m hm
          rcases List.mem_cons.mp hm with rfl | hm
          · simp
          · exact hmarks m hm
        · rw [stripped_plain hnone hcolon, hstripped, List.flatMap_cons, Param.marked, Param.text]
          simp
        · rw [List.forall_mem_cons, hiff, findsEnds, Bool.and_eq_true, hfinds]
          cases p.custom <;> simp
      -- and where the expression is found
      have hfound : ∀ {rest : Bytes} (body s v : Bytes) (ps₁ ps₂ : List Param),
          p.customText ++ (p.after ++ ps.flatMap Param.text) = 0x28 :: rest →
          Encloses rest body s → ps = ps₁ ++ ps₂ → s = v ++ ps₂.flatMap Param.text →
          inert v = true → p.custom.isSome →
          0x28 :: body ++ 0x29 :: v = p.customText ++ p.after ++ ps₁.flatMap Param.text →
          (findsEnds (p :: ps) = true ↔ (∀ q ∈ ps₁, q.custom = none) ∧ findsEnds ps₂ = true) →
          ∃ ms : List (Param × Bool), ms.map Prod.fst = p :: ps ∧ Param.MarksCustom ms ∧
            u ++ stripped (c.move u.length) = u ++ ms.flatMap Param.marked ∧
            ((∀ m ∈ ms, m.2 = m.1.custom.isSome) ↔ findsEnds (p :: ps) = true) := by
        intro rest body s v ps₁ ps₂ htext hcloses hps hs hv hsome hsame hfinds
        rw [htext] at hcolon
        obtain ⟨d, hd, hstripped⟩ := stripped_hit hcolon p.name_ne p.name_word hcloses
        rw [hs] at hd
        have hlen₂ : ps₂.length < n := by
          rw [hps, List.length_append] at hlen
          omega
        have hcustom₂ : ∀ q ∈ ps₂, ∀ r ∈ q.custom, hasParam r = false := by
          intro q hq
          exact hcustom' q (by rw [hps]; exact List.mem_append_right _ hq)
        obtain ⟨ms, hms, hmarks, hstripped', hiff⟩ := ih _ hlen₂ _ rfl hd hv hcustom₂
        have hplain : ∀ qs : List Param,
            (qs.map fun q => (q, false)).flatMap Param.marked = qs.flatMap Param.text := by
          intro qs
          rw [List.flatMap_map]
          rfl
        refine ⟨(p, true) :: ((ps₁.map fun q => (q, false)) ++ ms), ?_, ?_, ?_, ?_⟩
        · rw [List.map_cons, List.map_append, hms, hps, List.map_map]
          simp [Function.comp_def]
        · intro m hm
          rcases List.mem_cons.mp hm with rfl | hm
          · exact fun _ => hsome
          · rcases List.mem_append.mp hm with hm | hm
            · obtain ⟨q, -, rfl⟩ := List.mem_map.mp hm
              simp
            · exact hmarks m hm
        · rw [hstripped, hstripped', List.flatMap_cons, List.flatMap_append, hplain, Param.marked,
            if_pos rfl]
          have happend : 0x28 :: body ++ 0x29 :: (v ++ ms.flatMap Param.marked) =
              (0x28 :: body ++ 0x29 :: v) ++ ms.flatMap Param.marked := by simp
          rw [happend, hsame]
          simp
        · rw [hfinds, List.forall_mem_cons, List.forall_mem_append, hiff, List.forall_mem_map]
          simp only [hsome, true_and]
          refine and_congr_left fun _ => forall₂_congr fun q _ => ?_
          cases q.custom <;> simp
      cases hp : p.custom with
      | none =>
        have htext : p.customText = [] := by
          rw [Param.customText, hp]
          rfl
        refine hkept ?_ (by rw [findsEnd, hp]; simp)
        have hends := p.endsName (Param.endsName_flatMap ps)
        refine matchAt_paramWithRegexRe_eq_none hcolon p.name_ne p.name_word hends (Or.inl ?_)
        rw [htext, List.nil_append]
        -- a plain parameter has no parenthesis behind it
        have hafter := (p.plain_ends hp).2
        cases hrest' : p.after with
        | nil =>
          cases ps with
          | nil => simp
          | cons q ps => simp [Param.text]
        | cons b s =>
          rw [hrest'] at hafter
          exact hafter
      | some r =>
        have hends := p.endsName (Param.endsName_flatMap ps)
        cases r with
        | nil =>
          have htext : p.customText = [0x28, 0x29] := by
            rw [Param.customText, hp]
            rfl
          have hfind : findsEnd p ps = closesBefore ps p.after := by rw [findsEnd, hp]
          by_cases hc : ∃ w s, p.after ++ ps.flatMap Param.text = w ++ 0x29 :: s ∧ Open w
          · obtain ⟨w, s, hsplit, hw⟩ := hc
            obtain ⟨ps₁, ps₂, v, hps, hpre, hs, hv, hiff⟩ :=
              closesBefore_split ps hsplit hw p.inert_after hcustom'
            refine hfound (0x29 :: w) s v ps₁ ps₂ (by rw [htext]; rfl) ?_ hps hs hv
              (by rw [hp]; rfl) ?_ ?_
            · refine ⟨by rw [hsplit]; rfl, List.cons_ne_nil _ _, ?_, hw.1⟩
              intro b hb
              rcases List.mem_cons.mp hb with rfl | hb
              · decide
              · exact hw.2 b hb
            · rw [htext, List.append_assoc, hpre]
              rfl
            · rw [findsEnds, Bool.and_eq_true, hfind, hiff]
              refine and_congr_right fun hplain => ?_
              rw [hps, findsEnds_append hplain]
          · refine hkept ?_ ?_
            · refine matchAt_paramWithRegexRe_eq_none hcolon p.name_ne p.name_word hends
                (Or.inr fun body s' h => ?_)
              rw [htext] at h
              cases hbody : body with
              | nil => exact absurd hbody h.ne
              | cons y w =>
                have heq := h.eq
                rw [hbody] at heq
                obtain ⟨rfl, htail⟩ := List.cons.inj heq
                have hfirst := h.first
                rw [hbody] at hfirst
                exact hc ⟨w, s', htail, hfirst, fun b hb =>
                  h.line b (by rw [hbody]; exact List.mem_cons_of_mem _ hb)⟩
            · rw [hfind, hp]
              refine ⟨fun h => absurd ?_ hc, by simp⟩
              exact exists_of_closesBefore ps h
        | cons x r =>
          have htext : p.customText = 0x28 :: (x :: r) ++ [0x29] := by
            rw [Param.customText, hp]
            rfl
          obtain ⟨w, v, hwv, htake, hyes, hno⟩ :=
            closes_expression (x := x) (r := r) (s := p.after ++ ps.flatMap Param.text)
          have hfind : findsEnd p ps = (x :: w).all fun b => !isNewline b := by
            rw [findsEnd, hp]
            show ((x :: r.takeWhile (· != 0x29)).all fun b => !isNewline b) = _
            rw [htake]
          by_cases hall : (x :: w).all (fun b => !isNewline b) = true
          · have hr := hcustom p List.mem_cons_self (x :: r) (by rw [hp]; rfl)
            rw [hasParam, Bool.or_eq_false_iff] at hr
            have hinert := inert_close hr.2
            rw [hwv] at hinert
            have hv : inert v = true :=
              inert_of_append (u := w ++ [0x29]) (by simpa using hinert)
            refine hfound (x :: w) _ (v ++ p.after) [] ps ?_ (hyes hall) rfl (by simp)
              (inert_append hv p.inert_after) (by rw [hp]; rfl) ?_ ?_
            · rw [htext]
              simp
            · have happend : 0x28 :: x :: w ++ 0x29 :: (v ++ p.after) =
                  0x28 :: x :: (w ++ 0x29 :: v) ++ p.after := by simp
              rw [happend, ← hwv, htext]
              simp
            · rw [findsEnds, hfind, hall, Bool.true_and]
              simp
          · refine hkept ?_ ?_
            · refine matchAt_paramWithRegexRe_eq_none hcolon p.name_ne p.name_word hends
                (Or.inr fun body s' h => hall ?_)
              rw [htext] at h
              exact hno body s' (by simpa using h)
            · rw [hfind, hp]
              simp [hall]

/-- The text comes out right where every expression is found. -/
theorem text_iff (t : Template) (h : ∀ p ∈ t.params, ∀ r ∈ p.custom, hasParam r = false) :
    (parsePathToRegex t.text).1 = 0x5E :: (t.lead ++ t.params.flatMap Param.expected) ++ [0x24] ↔
      findsEnds t.params = true := by
  obtain ⟨ms, hms, hmarks, hstripped, hiff⟩ := stripped_params t.params
    (show (Cursor.start t.text).rest = t.lead ++ t.params.flatMap Param.text from rfl)
    (inert_of_not_mem t.lead_literal) h
  have hcustom : ∀ m ∈ ms, ∀ r ∈ m.1.custom, hasParam r = false := by
    intro m hm
    exact h m.1 (by rw [← hms]; exact List.mem_map_of_mem hm)
  have hfilled : filled (Cursor.start (stripped (Cursor.start t.text))) =
      t.lead ++ ms.flatMap Param.replaced :=
    Param.filled_marked ms (by rw [hstripped]; rfl) (inert_of_not_mem t.lead_literal) hmarks hcustom
  have hresult : (parsePathToRegex t.text).1 =
      0x5E :: (t.lead ++ ms.flatMap Param.replaced) ++ [0x24] := by
    rw [← hfilled]
    rfl
  rw [hresult, ← hiff, ← Param.replaced_iff hmarks, hms]
  simp

/-! ### The groups -/

/-- Behind an opening parenthesis that is not marked the text is read as anywhere else, with one
    more group. -/
theorem read_opened {u : Bytes} (hne : u ≠ []) (h : u.head? ≠ some 0x3F) :
    Lex.opened.read u = ((Lex.plain.read u).1, 1 + (Lex.plain.read u).2) := by
  cases u with
  | nil => exact absurd rfl hne
  | cons b u =>
    have hb : b ≠ 0x3F := by simpa using h
    have hnext : Lex.opened.next b = Lex.plain.next b := if_neg hb
    have hopens : Lex.opened.opens b = 1 := if_neg hb
    rw [Lex.read, Lex.read, hnext, hopens, show Lex.plain.opens b = 0 from rfl, Nat.zero_add]

/-- Only in plain text a parenthesis opens a group and nothing before it does. -/
theorem read_open_paren (l : Lex) (n i : Nat) (hn : i ≤ n) :
    (l.next 0x28 = .opened ∧ n + l.opens 0x28 = i) ↔ l = .plain ∧ n = i := by
  cases l with
  | plain => simp [Lex.next, Lex.onPlain, Lex.opens]
  | escape => simp [Lex.next]
  | opened =>
    simp only [Lex.opens]
    constructor
    · rintro ⟨-, h⟩
      rw [if_neg (by decide)] at h
      omega
    · rintro ⟨h, -⟩
      exact absurd h (by simp)
  | bracket => simp [Lex.next, Lex.onBracket]
  | bracketEscape => simp [Lex.next]
  | inner => simp [Lex.next, Lex.onBracket]
  | named kind =>
    simp only [Lex.next]
    split <;> simp
  | namedEnd kind => simp [Lex.next]

theorem opensGroup_iff {i : Nat} {pre u : Bytes} (post : Bytes)
    (h : Lex.plain.read (pre ++ u) = ((Lex.plain.read u).1, i + (Lex.plain.read u).2)) :
    OpensGroup (i + 1) (pre ++ u) post ↔ quiet u = true ∧ post.head? ≠ some 0x3F := by
  have hread : Lex.plain.read (pre ++ u ++ [0x28]) =
      ((Lex.plain.read u).1.next 0x28,
        i + (Lex.plain.read u).2 + (Lex.plain.read u).1.opens 0x28) := by
    rw [Lex.read_append, h]
    rfl
  rw [OpensGroup, hread, Nat.add_right_cancel_iff, ← and_assoc,
    read_open_paren _ _ _ (Nat.le_add_right _ _), quiet, beq_iff_eq, Prod.ext_iff]
  constructor
  · rintro ⟨⟨hplain, hnone⟩, hpost⟩
    exact ⟨⟨hplain, by omega⟩, hpost⟩
  · rintro ⟨⟨hplain, hnone⟩, hpost⟩
    exact ⟨⟨hplain, by rw [hnone]; rfl⟩, hpost⟩

/-- The parameters are in the groups that belong to their places, from the `i`-th one on. -/
theorem groups_iff (ps : List Param) : ∀ {i : Nat} {pre u : Bytes},
    Lex.plain.read (pre ++ u) = ((Lex.plain.read u).1, i + (Lex.plain.read u).2) →
    ((∀ before p behind, ps = before ++ p :: behind →
      OpensGroup (i + before.length + 1) (pre ++ u ++ before.flatMap Param.expected)
        (p.pattern ++ 0x29 :: (p.after ++ behind.flatMap Param.expected))) ↔
      onlyGroups u ps = true) := by
  induction ps with
  | nil =>
    intro i pre u _
    simp [onlyGroups]
  | cons p ps ih =>
    intro i pre u h
    have hpost : ∀ s : Bytes,
        (p.pattern ++ 0x29 :: s).head? ≠ some 0x3F ↔ (p.pattern.head? != some 0x3F) = true := by
      intro s
      cases p.pattern <;> simp
    have hfirst := opensGroup_iff (p.pattern ++ 0x29 :: (p.after ++ ps.flatMap Param.expected)) h
    rw [hpost] at hfirst
    -- where the first parameter opens its group the next one follows on it
    have hnext : quiet u = true → (p.pattern.head? != some 0x3F) = true →
        Lex.plain.read ((pre ++ u ++ [0x28]) ++ (p.pattern ++ 0x29 :: p.after)) =
          ((Lex.plain.read (p.pattern ++ 0x29 :: p.after)).1,
            i + 1 + (Lex.plain.read (p.pattern ++ 0x29 :: p.after)).2) := by
      intro hquiet hmark
      have hopens := (opensGroup_iff [] h).mpr ⟨hquiet, by simp⟩
      have hread := read_opened (u := p.pattern ++ 0x29 :: p.after) (by simp)
        ((hpost p.after).mpr hmark)
      rw [Lex.read_append, hopens.1, hread, Prod.mk.injEq]
      have hcount : (Lex.plain.read (pre ++ u ++ [0x28])).2 = i := Nat.succ_inj.mp hopens.2.1
      rw [hcount]
      exact ⟨rfl, by omega⟩
    have hexpected : ∀ before : List Param,
        pre ++ u ++ (p :: before).flatMap Param.expected =
          (pre ++ u ++ [0x28]) ++ (p.pattern ++ 0x29 :: p.after) ++
            before.flatMap Param.expected := by
      intro before
      rw [List.flatMap_cons, Param.expected]
      simp
    rw [onlyGroups, Bool.and_eq_true, Bool.and_eq_true, ← hfirst]
    constructor
    · intro hall
      have hhere : OpensGroup (i + 1) (pre ++ u) (p.pattern ++ 0x29 :: (p.after ++
          ps.flatMap Param.expected)) := by
        simpa using hall [] p ps rfl
      have hcond := hfirst.mp hhere
      refine ⟨hhere, (ih (hnext hcond.1 hcond.2)).mp ?_⟩
      intro before q behind hps
      have hthere := hall (p :: before) q behind (by rw [hps]; rfl)
      rw [hexpected, List.length_cons] at hthere
      rw [show i + 1 + before.length + 1 = i + (before.length + 1) + 1 by omega]
      exact hthere
    · rintro ⟨hhere, hrest⟩
      have hcond := hfirst.mp hhere
      have hall := (ih (hnext hcond.1 hcond.2)).mpr hrest
      intro before q behind hps
      cases before with
      | nil =>
        obtain ⟨rfl, rfl⟩ := List.cons.inj hps
        simpa using hhere
      | cons p' before =>
        obtain ⟨rfl, htail⟩ := List.cons.inj hps
        have hthere := hall before q behind htail
        rw [hexpected, List.length_cons,
          show i + (before.length + 1) + 1 = i + 1 + before.length + 1 by omega]
        exact hthere

/-- `parse_path_to_regex` does what it should for the templates in whose expressions no colon
    stands before a character of a name, whose expressions the first replacement finds, and which
    up to their last parameter open no group but the parameters' own, and for no others. -/
theorem parsed_rightly_iff (t : Template) :
    t.ParsedRightly ↔
      (∀ p ∈ t.params, ∀ r ∈ p.custom, hasParam r = false) ∧ findsEnds t.params = true ∧
        onlyGroups t.lead t.params = true := by
  have hgroups : (∀ before p behind, t.params = before ++ p :: behind →
      OpensGroup (before.length + 1) (0x5E :: (t.lead ++ before.flatMap Param.expected))
        (p.pattern ++ 0x29 :: (p.after ++ behind.flatMap Param.expected))) ↔
      onlyGroups t.lead t.params = true := by
    have hcaret : Lex.plain.read ([0x5E] ++ t.lead) =
        ((Lex.plain.read t.lead).1, 0 + (Lex.plain.read t.lead).2) := rfl
    rw [← groups_iff t.params hcaret]
    simp
  constructor
  · intro h
    have hnames := (names_iff t).mp h.names
    exact ⟨hnames, (text_iff t hnames).mp h.text, hgroups.mp h.groups⟩
  · rintro ⟨hnames, hends, honly⟩
    exact ⟨(names_iff t).mpr hnames, (text_iff t hnames).mpr hends, hgroups.mpr honly⟩

/-- `/:id((?:ab)+)`. -/
def nonCapturing : Template where
  lead := str "/"
  params := [{ name := str "id", custom := some (str "(?:ab)+"), after := [], name_ne := by decide,
               name_word := List.all_eq_true.mp rfl, after_literal := by decide, plain_ends := by simp }]
  lead_literal := by decide

/-- The colon of a group that captures nothing starts a name. -/
theorem nonCapturing_misread : ¬ nonCapturing.ParsedRightly := by
  intro h
  have hnames := (names_iff nonCapturing).mp h.names
  exact absurd (hnames _ List.mem_cons_self _ rfl) (by decide)

end MyWebSocket
