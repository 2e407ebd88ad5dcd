import MyWebSocket.Http.Template
import MyWebSocket.Http.Router

namespace MyWebSocket

open Regex (Re Cursor Reader isWord isMeta inOrder)

/-!
# Registered routes

`httpRouter::addRoute`, and what `dispatch` does with routes that came from templates: on
templates of literal and parameter segments it compares the path with them segment by segment
(`dispatch_handler_eq`), and it never hands over the last of the parameters
(`params_incomplete`).
-/

variable {η : Type}

/-- `std::regex_match(path, match_results, pattern)`, a group that took no part being empty. -/
def matchResults (re : Re UInt8) (groups : Nat) (path : Bytes) : Option (List Bytes) :=
  (Regex.fullMatch re path).map fun c =>
    path :: (List.range' 1 groups).map fun i => (c.caps.lookup i).getD []

/-- The route of a template, `none` where the constructor of `std::regex` throws. -/
def Route.ofTemplate (pathTemplate : Bytes) (handler : η) : Option (Route η) :=
  let parsed := parsePathToRegex pathTemplate
  (Regex.compile parsed.1).map fun e =>
    { pattern := matchResults e.1 e.2, handler := handler, paramNames := parsed.2 }

/-- `httpRouter::addRoute`.  A `regex_error` is caught; the method has no entry in the map before
    its first route. -/
def Router.addRoute (router : Router η) (method : HttpMethod) (pathTemplate : Bytes)
    (handler : η) : Router η :=
  match Route.ofTemplate pathTemplate handler with
  | none => router
  | some r =>
    { routes := fun m =>
        if m = method then some ((router.routes m).getD [] ++ [r]) else router.routes m }

/-- A call of `addRoute`. -/
structure Registration (η : Type) where
  method : HttpMethod
  pathTemplate : Bytes
  handler : η

/-- The router after these calls. -/
def registered (regs : List (Registration η)) : Router η :=
  regs.foldl (fun router r => router.addRoute r.method r.pathTemplate r.handler)
    { routes := fun _ => none }

/-! ### Segments -/

/-- A segment of a template: literal text, in which no parameter is, or `:name`. -/
inductive Segment
  | literal (text : Bytes) (isLiteral : hasParam text = false)
  | param (name : Bytes) (isName : name ≠ [] ∧ ∀ b ∈ name, isWord b = true)

namespace Segment

def text : Segment → Bytes
  | .literal t _ => t
  | .param name _ => 0x3A :: name

def names : Segment → List Bytes
  | .literal _ _ => []
  | .param name _ => [name]

/-- A template. -/
def join : List Segment → Bytes
  | [] => []
  | s :: ss => s.text ++ ss.flatMap fun s => 0x2F :: s.text

theorem endsName_slash (ss : List Segment) : EndsName (ss.flatMap fun s => 0x2F :: s.text) := by
  cases ss with
  | nil => rfl
  | cons s ss =>
    show Option.any isWord (some 0x2F) = false
    rfl

/-- The names in front of the end of a segment. -/
theorem namesFrom_text (s : Segment) {rest : Bytes} {c : Cursor UInt8}
    (h : c.rest = s.text ++ rest) (hrest : EndsName rest) :
    ∃ d : Cursor UInt8, d.rest = rest ∧ namesFrom c = s.names ++ namesFrom d := by
  cases s with
  | literal t isLiteral =>
    obtain ⟨e, d, hd, hnames, hiff⟩ := namesFrom_append t h hrest
    rw [hiff.mpr isLiteral] at hnames
    exact ⟨d, hd, hnames⟩
  | param name isName =>
    obtain ⟨d, hd, hnames, -⟩ := param_hit h isName.1 isName.2 hrest
    exact ⟨d, hd, hnames⟩

theorem namesFrom_slash (ss : List Segment) : ∀ {c : Cursor UInt8},
    c.rest = (ss.flatMap fun s => 0x2F :: s.text) → namesFrom c = ss.flatMap names := by
  induction ss with
  | nil =>
    intro c h
    exact namesFrom_nil h
  | cons s ss ih =>
    intro c h
    have hmove : (c.move 1).rest = s.text ++ ss.flatMap fun s => 0x2F :: s.text := by
      rw [Cursor.move_rest, h]
      rfl
    obtain ⟨d, hd, hnames⟩ := s.namesFrom_text hmove (endsName_slash ss)
    rw [namesFrom_plain h (by rw [h]; rfl), hnames, ih hd]
    rfl

/-- The names of a template are those of its parameters. -/
theorem names_join (ss : List Segment) : (parsePathToRegex (join ss)).2 = ss.flatMap names := by
  show namesFrom (Cursor.start (join ss)) = _
  cases ss with
  | nil => exact namesFrom_nil rfl
  | cons s ss =>
    obtain ⟨d, hd, hnames⟩ := s.namesFrom_text (c := Cursor.start (join (s :: ss))) rfl
      (endsName_slash ss)
    rw [hnames, namesFrom_slash ss hd]
    rfl

end Segment

/-! ### The parameters of a match -/

/-- The parameters `dispatch` assigns are some of those but the last name. -/
theorem assigned_names_subset (r : Route η) (results : List Bytes) :
    ∀ e ∈ r.assigned results, e.1 ∈ r.paramNames.dropLast := by
  intro e he
  obtain ⟨i, hi, rfl⟩ := List.mem_map.mp he
  rw [List.mem_range'_1] at hi
  have hlt : i - 1 < r.paramNames.dropLast.length := by
    rw [List.length_dropLast]
    omega
  have hget : r.paramNames.getD (i - 1) [] = r.paramNames.dropLast[i - 1] := by
    rw [List.getElem_dropLast, List.getD_eq_getElem?_getD, List.getElem?_eq_getElem]
    rfl
  rw [hget]
  exact List.getElem_mem hlt

/-- The map with these entries. -/
def paramMap (es : List (Bytes × Bytes)) : HeaderMap := es.foldl (fun m e => m.insert e.1 e.2) ∅

/-- Whatever the texts of the parameter segments are, the parameters of the request are not the
    names with these texts: the last one is missing. -/
theorem params_incomplete (router : Router η) (req : HttpReq) (ss : List Segment) (handler : η)
    (r : Route η) (results : List Bytes)
    (hroute : Route.ofTemplate (Segment.join ss) handler = some r)
    (hmatch : router.firstMatch req.method (pathOf req.url) = some (r, results))
    (hempty : req.params = ∅) (hne : ss.flatMap Segment.names ≠ [])
    (hdistinct : (ss.flatMap Segment.names).Nodup) (texts : List Bytes)
    (hlen : texts.length = (ss.flatMap Segment.names).length) :
    (router.dispatch req).1.params ≠ paramMap ((ss.flatMap Segment.names).zip texts) := by
  have hnames : r.paramNames = ss.flatMap Segment.names := by
    rw [Route.ofTemplate] at hroute
    obtain ⟨e, -, rfl⟩ := Option.map_eq_some_iff.mp hroute
    exact Segment.names_join ss
  rw [← hnames] at hne hdistinct hlen ⊢
  rw [Router.dispatch_of_match hmatch, hempty]
  intro h
  -- the last name has a value in one map only
  have hlast : r.paramNames = r.paramNames.dropLast ++ [r.paramNames.getLast hne] :=
    (List.dropLast_append_getLast hne).symm
  have hlookup := congrArg (Finmap.lookup (r.paramNames.getLast hne)) h
  rw [paramMap, Entries.lookup_foldl_insert, Entries.lookup_foldl_insert, Finmap.lookup_empty,
    Option.or_none, Option.or_none] at hlookup
  have hmissing : r.paramNames.getLast hne ∉ (r.assigned results).reverse.map Prod.fst := by
    intro hmem
    obtain ⟨e, he, heq⟩ := List.mem_map.mp hmem
    have hdrop := assigned_names_subset r results e (List.mem_reverse.mp he)
    rw [heq] at hdrop
    rw [hlast, List.nodup_append] at hdistinct
    exact hdistinct.2.2 _ hdrop _ List.mem_cons_self rfl
  have hthere : r.paramNames.getLast hne ∈ (r.paramNames.zip texts).reverse.map Prod.fst := by
    rw [List.map_reverse, List.mem_reverse, List.map_fst_zip hlen.ge]
    exact List.getLast_mem hne
  rw [← Entries.lookup_isSome_iff] at hmissing hthere
  rw [hlookup] at hmissing
  exact hmissing hthere

/-- `/test/:test/address/:address`. -/
def testSegments : List Segment :=
  [.literal [] rfl, .literal (str "test") rfl,
    .param (str "test") ⟨by decide, List.all_eq_true.mp rfl⟩, .literal (str "address") rfl,
    .param (str "address") ⟨by decide, List.all_eq_true.mp rfl⟩]

def testRouter : Router Unit := registered [⟨.get, Segment.join testSegments, ()⟩]

def testRequest : HttpReq :=
  { HttpReq.init .get with url := str "/test/123/address/123456?name=away&age=18&sex=male" }

/-- The route of the test program binds one of its two parameters. -/
theorem testRouter_incomplete :
    (testRouter.dispatch testRequest).2 = some () ∧
      (testRouter.dispatch testRequest).1.params ≠
        paramMap [(str "test", str "123"), (str "address", str "123456")] := by
  refine ⟨by decide, fun h => ?_⟩
  have hlookup := congrArg (Finmap.lookup (str "address")) h
  exact absurd hlookup (by decide)

theorem params_incomplete_test :
    (testRouter.dispatch testRequest).1.params ≠
      paramMap [(str "test", str "123"), (str "address", str "123456")] :=
  params_incomplete testRouter testRequest testSegments ()
    ((Route.ofTemplate (Segment.join testSegments) ()).get rfl) _
    (Option.some_get _).symm (by rfl) rfl (by decide) (by decide) [str "123", str "123456"] rfl

/-! ### Plain templates -/

/-- Without a parenthesis the first replacement finds nothing. -/
theorem stripped_of_not_mem : ∀ {s : Bytes} {c : Cursor UInt8}, c.rest = s →
    (0x28 : UInt8) ∉ s → stripped c = s := by
  intro s
  induction s with
  | nil =>
    intro c h _
    exact stripped_nil h
  | cons b s ih =>
    intro c h hs
    rw [List.mem_cons, not_or] at hs
    have hmove : (c.move 1).rest = s := by
      rw [Cursor.move_rest, h]
      rfl
    have hnone : Regex.matchAt paramWithRegexRe false c = none := by
      by_cases hstarts : startsParam c.rest = true
      · rw [h, startsParam, Bool.and_eq_true, beq_iff_eq] at hstarts
        have hsplit : c.rest = 0x3A :: (s.takeWhile isWord ++ s.dropWhile isWord) := by
          rw [h, hstarts.1, List.takeWhile_append_dropWhile]
        have hne : s.takeWhile isWord ≠ [] := by
          cases s with
          | nil => simp at hstarts
          | cons d s =>
            have hd : isWord d = true := by simpa using hstarts.2
            rw [List.takeWhile_cons_of_pos hd]
            exact List.cons_ne_nil _ _
        refine matchAt_paramWithRegexRe_eq_none hsplit hne
          (fun x hx => List.mem_takeWhile_imp hx) (endsName_dropWhile s) (Or.inl ?_)
        intro hopen
        obtain ⟨rest, hrest⟩ := List.head?_eq_some_iff.mp hopen
        refine hs.2 ((List.dropWhile_suffix isWord).subset ?_)
        rw [hrest]
        exact List.mem_cons_self
      · rw [Bool.not_eq_true] at hstarts
        exact (matchAt_of_not_startsParam hstarts).2
    rw [stripped_plain hnone h, ih hmove hs.2]

/-- A segment is plain where its text has no meaning of its own in a regular expression. -/
def Segment.Plain : Segment → Prop
  | .literal t _ => ∀ b ∈ t, isMeta b = false ∧ b ≠ 0x3A ∧ b ≠ 0x2F
  | .param _ _ => True

namespace Segment

/-- The expression of a segment. -/
def regex : Segment → Bytes
  | .literal t _ => t
  | .param _ _ => str "([^/]+)"

theorem open_not_mem_text {s : Segment} (h : s.Plain) : (0x28 : UInt8) ∉ s.text := by
  intro hmem
  cases s with
  | literal t isLiteral => exact absurd (h _ hmem).1 (by decide)
  | param name isName =>
    rcases List.mem_cons.mp hmem with hmem | hmem
    · exact absurd hmem (by decide)
    · exact absurd (isName.2 _ hmem) (by decide)

/-- The second replacement in front of the end of a segment. -/
theorem filled_text {s : Segment} (hs : s.Plain) {rest : Bytes} {c : Cursor UInt8}
    (h : c.rest = s.text ++ rest) (hrest : EndsName rest) :
    ∃ d : Cursor UInt8, d.rest = rest ∧ filled c = s.regex ++ filled d := by
  cases s with
  | literal t isLiteral =>
    refine ⟨c.move t.length, by rw [Cursor.move_rest, h]; exact List.drop_left, ?_⟩
    exact filled_inert h (inert_of_not_mem fun hmem => (hs _ hmem).2.1 rfl)
  | param name isName =>
    obtain ⟨d, hd, -, hfilled⟩ := param_hit h isName.1 isName.2 hrest
    exact ⟨d, hd, hfilled⟩

theorem filled_slash (ss : List Segment) (hss : ∀ s ∈ ss, s.Plain) : ∀ {c : Cursor UInt8},
    c.rest = (ss.flatMap fun s => 0x2F :: s.text) →
    filled c = ss.flatMap fun s => 0x2F :: s.regex := by
  induction ss with
  | nil =>
    intro c h
    exact filled_nil h
  | cons s ss ih =>
    intro c h
    have hslash : c.rest = [0x2F] ++ (s.text ++ ss.flatMap fun s => 0x2F :: s.text) := h
    have hmove : (c.move 1).rest = s.text ++ ss.flatMap fun s => 0x2F :: s.text := by
      rw [Cursor.move_rest, hslash]
      rfl
    obtain ⟨d, hd, hfilled⟩ := filled_text (hss s List.mem_cons_self) hmove (endsName_slash ss)
    rw [filled_inert hslash (by decide), List.length_singleton, hfilled,
      ih (fun s' hs' => hss s' (List.mem_cons_of_mem _ hs')) hd]
    simp

/-- The text of the regular expression of a plain template. -/
theorem regex_join (s : Segment) (ss : List Segment) (hs : s.Plain) (hss : ∀ s ∈ ss, s.Plain) :
    (parsePathToRegex (join (s :: ss))).1 =
      0x5E :: (s.regex ++ ss.flatMap fun s => 0x2F :: s.regex) ++ [0x24] := by
  have hopen : (0x28 : UInt8) ∉ join (s :: ss) := by
    rw [join, List.mem_append, List.mem_flatMap, not_or]
    refine ⟨open_not_mem_text hs, ?_⟩
    rintro ⟨s', hs', hmem⟩
    rcases List.mem_cons.mp hmem with hmem | hmem
    · exact absurd hmem (by decide)
    · exact open_not_mem_text (hss s' hs') hmem
  have hstripped : stripped (Cursor.start (join (s :: ss))) = join (s :: ss) :=
    stripped_of_not_mem rfl hopen
  obtain ⟨d, hd, hfilled⟩ := filled_text (c := Cursor.start (join (s :: ss))) hs rfl
    (endsName_slash ss)
  have hresult : (parsePathToRegex (join (s :: ss))).1 =
      0x5E :: filled (Cursor.start (stripped (Cursor.start (join (s :: ss))))) ++ [0x24] := rfl
  rw [hresult, hstripped, hfilled, filled_slash ss hss hd]

end Segment

/-! ### What a plain template compiles to -/

/-- A character that stands for itself. -/
def charRe (b : UInt8) : Re UInt8 := .set (· == b)

/-- `([^/]+)`, as group `i`. -/
def segmentRe (i : Nat) : Re UInt8 :=
  .group i (.seq (.rep 1 none true (.set fun b => b != 0x2F)) .eps)

def startRe : Re UInt8 := .assert fun past _ => past.isEmpty

def endRe : Re UInt8 := .assert fun _ rest => rest.isEmpty

namespace Segment

/-- The groups of a segment. -/
def count : Segment → Nat
  | .literal _ _ => 0
  | .param _ _ => 1

/-- The terms of a segment behind `n` groups. -/
def terms (n : Nat) : Segment → List (Re UInt8)
  | .literal t _ => t.map charRe
  | .param _ _ => [segmentRe (n + 1)]

/-- The terms of the segments behind the first one. -/
def slashTerms : Nat → List Segment → List (Re UInt8)
  | _, [] => []
  | n, s :: ss => charRe 0x2F :: (s.terms n ++ slashTerms (n + s.count) ss)

def counts (ss : List Segment) : Nat := (ss.map count).sum

end Segment

/-- `([^/]+)` is read as one group. -/
theorem run_segmentRe {r : Reader} (hb : r.bracket = none) (hm : ∃ q, r.mode = .plain q) :
    ∃ r', (str "([^/]+)").foldlM Reader.step r = some r' ∧
      r.Extends [segmentRe (r.groups + 1)] 1 r' := by
  obtain ⟨⟨kind, alts, ts⟩, outer, groups, bracket, mode⟩ := r
  obtain ⟨q, rfl⟩ := hm
  obtain rfl : bracket = none := hb
  have hset : (⟨true, [(· == 0x2F)], some (some 0x2F), false⟩ : Regex.Bracket).toSet =
      fun b => b != 0x2F := by
    funext b
    simp [Regex.Bracket.toSet, bne]
  have hrun : (str "([^/]+)").foldlM Reader.step
      ⟨⟨kind, alts, ts⟩, outer, groups, none, .plain q⟩ =
      some ⟨⟨kind, alts, .group (groups + 1) (.seq (.rep 1 none true (.set
        (⟨true, [(· == 0x2F)], some (some 0x2F), false⟩ : Regex.Bracket).toSet)) .eps) :: ts⟩,
        outer, groups + 1, none, .plain true⟩ := rfl
  rw [hset] at hrun
  exact ⟨_, hrun, rfl, rfl, rfl, rfl, true, rfl⟩

namespace Segment

theorem run_regex {s : Segment} (hs : s.Plain) {r : Reader} (hb : r.bracket = none)
    (hm : ∃ q, r.mode = .plain q) :
    ∃ r', s.regex.foldlM Reader.step r = some r' ∧ r.Extends (s.terms r.groups) s.count r' := by
  cases s with
  | literal t isLiteral => exact Reader.run_literal hb hm fun c hc => (hs c hc).1
  | param name isName => exact run_segmentRe hb hm

theorem run_slash (ss : List Segment) (hss : ∀ s ∈ ss, s.Plain) : ∀ {r : Reader},
    r.bracket = none → (∃ q, r.mode = .plain q) →
    ∃ r', (ss.flatMap fun s => 0x2F :: s.regex).foldlM Reader.step r = some r' ∧
      r.Extends (slashTerms r.groups ss) (counts ss) r' := by
  induction ss with
  | nil =>
    rintro r hb ⟨q, hm⟩
    exact ⟨r, rfl, Reader.Extends.refl hb hm⟩
  | cons s ss ih =>
    rintro r hb hm
    have hslash : ∀ c ∈ [(0x2F : UInt8)], isMeta c = false := by
      intro c hc
      rw [List.mem_singleton.mp hc]
      rfl
    obtain ⟨r₁, hrun₁, hext₁⟩ := Reader.run_literal hb hm hslash
    obtain ⟨r₂, hrun₂, hext₂⟩ := run_regex (hss s List.mem_cons_self) hext₁.bracket hext₁.mode
    obtain ⟨r₃, hrun₃, hext₃⟩ := ih (fun s' hs' => hss s' (List.mem_cons_of_mem _ hs'))
      hext₂.bracket hext₂.mode
    rw [hext₂.groups] at hext₃
    have hgroups : r₁.groups = r.groups := hext₁.groups
    rw [hgroups] at hext₂ hext₃
    refine ⟨r₃, ?_, ?_⟩
    · have hsplit : ((s :: ss).flatMap fun s => 0x2F :: s.regex) =
          [0x2F] ++ (s.regex ++ ss.flatMap fun s => 0x2F :: s.regex) := by
        rw [List.flatMap_cons]
        rfl
      rw [hsplit, List.foldlM_append, hrun₁]
      show (s.regex ++ _).foldlM Reader.step r₁ = _
      rw [List.foldlM_append, hrun₂]
      exact hrun₃
    · have hall := hext₁.trans (hext₂.trans hext₃)
      rw [Nat.zero_add] at hall
      exact hall

/-- The regular expression of a plain template. -/
def joinRe (s : Segment) (ss : List Segment) : Re UInt8 :=
  inOrder (startRe :: (s.terms 0 ++ (slashTerms s.count ss ++ [endRe])))

theorem compile_join (s : Segment) (ss : List Segment) (hs : s.Plain) (hss : ∀ s ∈ ss, s.Plain) :
    Regex.compile (parsePathToRegex (join (s :: ss))).1 =
      some (joinRe s ss, counts (s :: ss)) := by
  have hstart : Reader.Extends .init [startRe] 0 (Reader.init.push startRe false) :=
    ⟨rfl, rfl, rfl, rfl, false, rfl⟩
  obtain ⟨r₁, hrun₁, hext₁⟩ := run_regex hs hstart.bracket hstart.mode
  obtain ⟨r₂, hrun₂, hext₂⟩ := run_slash ss hss hext₁.bracket hext₁.mode
  have hgroups : r₁.groups = s.count := hext₁.groups.trans (Nat.zero_add _)
  rw [hgroups] at hext₂
  obtain ⟨q, hm⟩ := hext₂.mode
  have hend : r₂.Extends [endRe] 0 (r₂.push endRe false) :=
    ⟨rfl, rfl, rfl, hext₂.bracket, false, rfl⟩
  have hdollar : r₂.step 0x24 = some (r₂.push endRe false) := by
    have hterm : r₂.step 0x24 = r₂.onTerm q 0x24 := by
      rw [Reader.step, hm]
      show r₂.onPlain q 0x24 = _
      rw [Reader.onPlain, hext₂.bracket]
    rw [hterm]
    rfl
  have hall := hstart.trans (hext₁.trans (hext₂.trans hend))
  rw [Nat.zero_add, Nat.add_zero] at hall
  refine Regex.compile_of_extends (r := r₂.push endRe false) ?_ hall
  rw [regex_join s ss hs hss, List.cons_append, List.foldlM_cons]
  show ((s.regex ++ ss.flatMap fun s : Segment => 0x2F :: s.regex) ++ [0x24]).foldlM Reader.step
    (Reader.init.push startRe false) = _
  rw [List.append_assoc, List.foldlM_append, hrun₁]
  show ((ss.flatMap fun s : Segment => 0x2F :: s.regex) ++ [0x24]).foldlM Reader.step r₁ = _
  rw [List.foldlM_append, hrun₂]
  show [0x24].foldlM Reader.step r₂ = _
  rw [List.foldlM_cons, hdollar]
  rfl

end Segment

/-! ### Matching segment by segment -/

/-- A segment of a path against one of a template. -/
def segmentMatches (t p : Bytes) : Bool := if t.head? = some 0x3A then !p.isEmpty else t == p

/-- As many segments as in the template, each of which matches. -/
def segmentsMatch : List Bytes → List Bytes → Bool
  | [], [] => true
  | t :: ts, p :: ps => segmentMatches t p && segmentsMatch ts ps
  | _, _ => false

/-- These terms match nothing inside a segment. -/
def AtSlash (ts : List (Re UInt8)) : Prop :=
  ∀ d : Cursor UInt8, d.rest.head?.any (· != 0x2F) = true → Regex.exec (inOrder ts) d = []

theorem exec_endRe (c : Cursor UInt8) :
    Regex.exec (inOrder [endRe]) c = if c.rest = [] then [c] else [] := by
  show Regex.exec (.seq endRe .eps) c = _
  rw [Regex.exec_seq_eps, endRe, Regex.exec]
  simp only [List.isEmpty_iff]

theorem atSlash_endRe : AtSlash [endRe] := by
  intro d hd
  rw [exec_endRe, if_neg]
  intro hnil
  rw [hnil] at hd
  simp at hd

theorem atSlash_slash (ts : List (Re UInt8)) : AtSlash (charRe 0x2F :: ts) := by
  intro d hd
  cases hrest : d.rest with
  | nil =>
    rw [hrest] at hd
    simp at hd
  | cons b s =>
    show Regex.exec (.seq (charRe 0x2F) (inOrder ts)) d = []
    have hb : (b == 0x2F) = false := by
      rw [hrest] at hd
      simpa using hd
    rw [charRe, Regex.exec_seq_set hrest, hb]
    rfl

/-- Literal text is compared character by character. -/
theorem exec_literal (ts : List (Re UInt8)) : ∀ (t : Bytes) (c : Cursor UInt8),
    Regex.exec (inOrder (t.map charRe ++ ts)) c =
      if t.isPrefixOf c.rest then Regex.exec (inOrder ts) (c.move t.length) else [] := by
  intro t
  induction t with
  | nil =>
    intro c
    rw [List.isPrefixOf, if_pos rfl, List.length_nil, Cursor.move_zero]
    rfl
  | cons b t ih =>
    intro c
    show Regex.exec (.seq (charRe b) (inOrder (t.map charRe ++ ts))) c = _
    cases hrest : c.rest with
    | nil => rw [charRe, Regex.exec_seq_set_nil hrest]; rfl
    | cons d s =>
      have hmove : (c.move 1).rest = s := by
        rw [Cursor.move_rest, hrest]
        rfl
      rw [charRe, Regex.exec_seq_set hrest, ih, hmove, Cursor.move_move, List.isPrefixOf,
        List.length_cons, Nat.add_comm 1]
      by_cases hd : d = b
      · simp [hd]
      · have hb : (b == d) = false := by simpa using fun h : b = d => hd h.symm
        simp [hd, hb]

namespace Segment

/-- The terms of a segment match the segment of the path, and all of it. -/
theorem exec_terms {s : Segment} (hs : s.Plain) (ts : List (Re UInt8)) (hts : AtSlash ts)
    (n : Nat) {p tail : Bytes} {c : Cursor UInt8} (hrest : c.rest = p ++ tail)
    (hp : (0x2F : UInt8) ∉ p) (htail : tail.head?.any (· != 0x2F) = false) :
    if segmentMatches s.text p then
      ∃ d : Cursor UInt8, d.rest = tail ∧
        Regex.exec (inOrder (s.terms n ++ ts)) c = Regex.exec (inOrder ts) d
    else Regex.exec (inOrder (s.terms n ++ ts)) c = [] := by
  cases s with
  | literal t isLiteral =>
    have hcolon : ¬ t.head? = some 0x3A := by
      intro hhead
      exact (hs _ (List.mem_of_head? hhead)).2.1 rfl
    have hmatch : segmentMatches (Segment.literal t isLiteral).text p = (t == p) :=
      if_neg hcolon
    rw [hmatch]
    show if (t == p) = true then
        ∃ d : Cursor UInt8, d.rest = tail ∧
          Regex.exec (inOrder (t.map charRe ++ ts)) c = Regex.exec (inOrder ts) d
      else Regex.exec (inOrder (t.map charRe ++ ts)) c = []
    rw [exec_literal]
    split
    · rename_i htp
      have heq : t = p := by simpa using htp
      refine ⟨c.move t.length, ?_, ?_⟩
      · rw [Cursor.move_rest, hrest, heq, List.drop_left]
      · rw [if_pos]
        rw [hrest, heq, List.isPrefixOf_iff_prefix]
        exact List.prefix_append p tail
    · rename_i htp
      have hne : t ≠ p := by simpa using htp
      split
      · rename_i hprefix
        rw [hrest, List.isPrefixOf_iff_prefix] at hprefix
        obtain ⟨w, hw⟩ := hprefix
        -- the text ends before the segment of the path does
        refine hts _ ?_
        rw [Cursor.move_rest, hrest, ← hw, List.drop_left]
        rcases List.append_eq_append_iff.mp hw with ⟨a, ha, hw'⟩ | ⟨a, ha, hw'⟩
        · cases a with
          | nil => exact absurd (by rw [ha, List.append_nil]) hne
          | cons b a =>
            have hb : b ≠ 0x2F := by
              rintro rfl
              exact hp (by rw [ha]; simp)
            rw [hw', List.cons_append, List.head?_cons, Option.any_some, bne_iff_ne]
            exact hb
        · -- nor does it go on behind it
          cases a with
          | nil => exact absurd (by rw [ha, List.append_nil]) hne
          | cons b a =>
            have hb : b ≠ 0x2F := (hs b (by rw [ha]; simp)).2.2
            rw [hw', List.cons_append, List.head?_cons, Option.any_some, bne_eq_false_iff_eq]
              at htail
            exact absurd htail hb
      · rfl
  | param name isName =>
    have hrun : c.rest.takeWhile (fun b => b != 0x2F) = p := by
      have hall : ∀ b ∈ p, (b != 0x2F) = true := by
        intro b hb
        rw [bne_iff_ne]
        rintro rfl
        exact hp hb
      rw [hrest, List.takeWhile_append_of_pos hall]
      cases tail with
      | nil => simp
      | cons b tail =>
        have hb : (b != 0x2F) = false := htail
        rw [List.takeWhile_cons_of_neg (by rw [hb]; simp), List.append_nil]
    have hexec := Regex.exec_captured_run hts (n + 1) c
    rw [hrun] at hexec
    have hmatch : segmentMatches (Segment.param name isName).text p = !p.isEmpty := if_pos rfl
    rw [hmatch]
    show if (!p.isEmpty) = true then
        ∃ d : Cursor UInt8, d.rest = tail ∧
          Regex.exec (.seq (segmentRe (n + 1)) (inOrder ts)) c = Regex.exec (inOrder ts) d
      else Regex.exec (.seq (segmentRe (n + 1)) (inOrder ts)) c = []
    rw [segmentRe]
    split
    · rename_i hne
      have hne' : p ≠ [] := by simpa using hne
      refine ⟨(c.move p.length).capture (n + 1) c, ?_, ?_⟩
      · rw [Cursor.capture_rest, Cursor.move_rest, hrest, List.drop_left]
      · rw [hexec, if_neg hne']
    · rename_i hnil
      have hnil' : p = [] := by simpa using hnil
      rw [hexec, if_pos hnil']

/-- All segments. -/
theorem exec_slashTerms (ss : List Segment) (hss : ∀ s ∈ ss, s.Plain) :
    ∀ (n : Nat) {s : Segment} {m : Nat} {p : Bytes} {ps : List Bytes} {c : Cursor UInt8},
      s.Plain → c.rest = p ++ ps.flatMap (0x2F :: ·) → (∀ q ∈ p :: ps, (0x2F : UInt8) ∉ q) →
      (((Regex.exec (inOrder (s.terms m ++ (slashTerms n ss ++ [endRe]))) c).find?
        (·.rest.isEmpty)).isSome = segmentsMatch ((s :: ss).map text) (p :: ps)) := by
  induction ss with
  | nil =>
    intro n s m p ps c hs hrest hps
    have htail : (ps.flatMap (0x2F :: ·)).head?.any (· != 0x2F) = false := by
      cases ps <;> simp
    have hterms := exec_terms hs _ atSlash_endRe m hrest (hps p List.mem_cons_self) htail
    show ((Regex.exec (inOrder (s.terms m ++ [endRe])) c).find? (·.rest.isEmpty)).isSome =
      (segmentMatches s.text p && segmentsMatch [] ps)
    split at hterms
    · rename_i hmatch
      obtain ⟨d, hd, hexec⟩ := hterms
      rw [hexec, exec_endRe, hd, hmatch]
      cases ps with
      | nil => simp [hd, segmentsMatch]
      | cons q ps => simp [segmentsMatch]
    · rename_i hmatch
      rw [hterms, Bool.eq_false_iff.mpr hmatch]
      rfl
  | cons s' ss ih =>
    intro n s m p ps c hs hrest hps
    have hss' : ∀ t ∈ ss, t.Plain := fun t ht => hss t (List.mem_cons_of_mem _ ht)
    have htail : (ps.flatMap (0x2F :: ·)).head?.any (· != 0x2F) = false := by
      cases ps <;> simp
    have hterms := exec_terms hs (slashTerms n (s' :: ss) ++ [endRe]) (atSlash_slash _) m
      hrest (hps p List.mem_cons_self) htail
    show _ = (segmentMatches s.text p && segmentsMatch ((s' :: ss).map text) ps)
    split at hterms
    · rename_i hmatch
      obtain ⟨d, hd, hexec⟩ := hterms
      rw [hexec, hmatch, Bool.true_and]
      show ((Regex.exec (.seq (charRe 0x2F) (inOrder ((s'.terms n ++
        slashTerms (n + s'.count) ss) ++ [endRe]))) d).find? (·.rest.isEmpty)).isSome = _
      cases ps with
      | nil => rw [charRe, Regex.exec_seq_set_nil hd]; rfl
      | cons q ps =>
        -- the slash, and the segments behind it
        have hd' : d.rest = 0x2F :: (q ++ ps.flatMap (0x2F :: ·)) := by
          rw [hd, List.flatMap_cons]
          rfl
        have hmove : (d.move 1).rest = q ++ ps.flatMap (0x2F :: ·) := by
          rw [Cursor.move_rest, hd']
          rfl
        rw [charRe, Regex.exec_seq_set hd', if_pos (by decide), List.append_assoc]
        exact ih hss' _ (hss s' List.mem_cons_self) hmove
          fun r hr => hps r (List.mem_cons_of_mem _ hr)
    · rename_i hmatch
      rw [hterms, Bool.eq_false_iff.mpr hmatch]
      rfl

/-- A plain template matches the paths that match segment by segment. -/
theorem fullMatch_joinRe {s : Segment} {ss : List Segment} (hs : s.Plain)
    (hss : ∀ s ∈ ss, s.Plain) {p : Bytes} {ps : List Bytes}
    (hps : ∀ q ∈ p :: ps, (0x2F : UInt8) ∉ q) :
    (Regex.fullMatch (joinRe s ss) (p ++ ps.flatMap (0x2F :: ·))).isSome =
      segmentsMatch ((s :: ss).map text) (p :: ps) := by
  have hstart : Regex.exec (joinRe s ss) (.start (p ++ ps.flatMap (0x2F :: ·))) =
      Regex.exec (inOrder (s.terms 0 ++ (slashTerms s.count ss ++ [endRe])))
        (.start (p ++ ps.flatMap (0x2F :: ·))) := by
    show (Regex.exec startRe _).flatMap _ = _
    have hhere : Regex.exec startRe (.start (p ++ ps.flatMap (0x2F :: ·))) =
        [.start (p ++ ps.flatMap (0x2F :: ·))] := rfl
    rw [hhere, List.flatMap_singleton]
    rfl
  rw [Regex.fullMatch, hstart]
  exact exec_slashTerms ss hss _ hs rfl hps

end Segment

/-! ### Plain templates as texts -/

/-- `:name`. -/
def isParamSegment : Bytes → Bool
  | [] => false
  | b :: name => b == 0x3A && !name.isEmpty && name.all isWord

/-- Literal text without regular-expression metacharacters and colons. -/
def isLiteralSegment (t : Bytes) : Bool := t.all fun b => !isMeta b && b != 0x3A

/-- Segments of these two kinds, separated by slashes. -/
def isPlain (pathTemplate : Bytes) : Bool :=
  (pathTemplate.splitOn 0x2F).all fun t => isParamSegment t || isLiteralSegment t

/-- Segment-wise matching. -/
def templateMatches (pathTemplate path : Bytes) : Bool :=
  segmentsMatch (pathTemplate.splitOn 0x2F) (path.splitOn 0x2F)

theorem splitOn_slash (s : Bytes) : ∃ p ps, s.splitOn 0x2F = p :: ps ∧
    s = p ++ ps.flatMap (0x2F :: ·) ∧ ∀ q ∈ p :: ps, (0x2F : UInt8) ∉ q := by
  induction s with
  | nil => exact ⟨[], [], rfl, rfl, by simp⟩
  | cons b s ih =>
    obtain ⟨p, ps, hsplit, hs, hps⟩ := ih
    rw [List.splitOn_cons_eq_if_modifyHead, hsplit]
    by_cases hb : b = 0x2F
    · rw [if_pos (by simpa using hb)]
      refine ⟨[], p :: ps, rfl, ?_, ?_⟩
      · rw [hb, hs, List.flatMap_cons]
        rfl
      · intro q hq
        rcases List.mem_cons.mp hq with rfl | hq
        · simp
        · exact hps q hq
    · rw [if_neg (by simpa using hb)]
      refine ⟨b :: p, ps, rfl, by rw [hs]; rfl, ?_⟩
      intro q hq
      rcases List.mem_cons.mp hq with rfl | hq
      · rw [List.mem_cons, not_or]
        exact ⟨fun h => hb h.symm, hps p List.mem_cons_self⟩
      · exact hps q (List.mem_cons_of_mem _ hq)

/-- The segments of a plain template. -/
theorem exists_segments : ∀ {ts : List Bytes},
    (ts.all fun t => isParamSegment t || isLiteralSegment t) = true →
    (∀ t ∈ ts, (0x2F : UInt8) ∉ t) →
    ∃ ss : List Segment, ss.map Segment.text = ts ∧ ∀ s ∈ ss, s.Plain := by
  intro ts
  induction ts with
  | nil =>
    intro _ _
    exact ⟨[], rfl, by simp⟩
  | cons t ts ih =>
    intro hall hslash
    rw [List.all_cons, Bool.and_eq_true, Bool.or_eq_true] at hall
    obtain ⟨ss, hss, hplain⟩ := ih hall.2 fun t' ht' => hslash t' (List.mem_cons_of_mem _ ht')
    have hsegment : ∃ s : Segment, s.text = t ∧ s.Plain := by
      rcases hall.1 with hparam | hliteral
      · cases t with
        | nil => simp [isParamSegment] at hparam
        | cons b name =>
          rw [isParamSegment, Bool.and_eq_true, Bool.and_eq_true, beq_iff_eq] at hparam
          obtain ⟨⟨rfl, hname⟩, hword⟩ := hparam
          have hne : name ≠ [] := by simpa using hname
          exact ⟨.param name ⟨hne, List.all_eq_true.mp hword⟩, rfl, trivial⟩
      · rw [isLiteralSegment, List.all_eq_true] at hliteral
        have hchars : ∀ b ∈ t, isMeta b = false ∧ b ≠ 0x3A ∧ b ≠ 0x2F := by
          intro b hb
          have hb' := hliteral b hb
          rw [Bool.and_eq_true, Bool.not_eq_true', bne_iff_ne] at hb'
          refine ⟨hb'.1, hb'.2, ?_⟩
          rintro rfl
          exact hslash t List.mem_cons_self hb
        exact ⟨.literal t (hasParam_of_not_mem fun h => (hchars _ h).2.1 rfl), rfl, hchars⟩
    obtain ⟨s, hs, hplain'⟩ := hsegment
    refine ⟨s :: ss, by rw [List.map_cons, hs, hss], ?_⟩
    intro s' hs'
    rcases List.mem_cons.mp hs' with rfl | hs'
    · exact hplain'
    · exact hplain s' hs'

/-- The route of a plain template. -/
theorem ofTemplate_plain {pathTemplate : Bytes} (h : isPlain pathTemplate = true) (handler : η) :
    ∃ r : Route η, Route.ofTemplate pathTemplate handler = some r ∧ r.handler = handler ∧
      ∀ path, (r.pattern path).isSome = templateMatches pathTemplate path := by
  obtain ⟨t, ts, hsplit, htemplate, hslash⟩ := splitOn_slash pathTemplate
  rw [isPlain, hsplit] at h
  obtain ⟨ss, hss, hplain⟩ := exists_segments h hslash
  cases ss with
  | nil => simp at hss
  | cons s ss =>
    have hjoin : pathTemplate = Segment.join (s :: ss) := by
      obtain ⟨hs, hss'⟩ := List.cons.inj hss
      rw [htemplate, ← hs, ← hss', List.flatMap_map]
      rfl
    have hcompile := Segment.compile_join s ss (hplain s List.mem_cons_self)
      fun s' hs' => hplain s' (List.mem_cons_of_mem _ hs')
    rw [← hjoin] at hcompile
    refine ⟨_, by rw [Route.ofTemplate]; simp only [hcompile]; rfl, rfl, ?_⟩
    intro path
    obtain ⟨p, ps, hpath, hp, hps⟩ := splitOn_slash path
    show (matchResults (Segment.joinRe s ss) _ path).isSome = _
    rw [matchResults, Option.isSome_map, templateMatches, hsplit, hpath, ← hss]
    conv_lhs => rw [hp]
    exact Segment.fullMatch_joinRe (hplain s List.mem_cons_self)
      (fun s' hs' => hplain s' (List.mem_cons_of_mem _ hs')) hps

/-! ### Any history of registrations -/

/-- The routes a method has after these calls. -/
def compiled (method : HttpMethod) (regs : List (Registration η)) : List (Route η) :=
  regs.filterMap fun r =>
    if method = r.method then Route.ofTemplate r.pathTemplate r.handler else none

theorem addRoute_routes (router : Router η) (r : Registration η) (method : HttpMethod) :
    (router.addRoute r.method r.pathTemplate r.handler).routes method =
      if compiled method [r] = [] then router.routes method
      else some ((router.routes method).getD [] ++ compiled method [r]) := by
  have hone : compiled method [r] =
      (if method = r.method then Route.ofTemplate r.pathTemplate r.handler else none).toList := by
    rw [compiled, List.filterMap_cons, List.filterMap_nil]
    cases (if method = r.method then Route.ofTemplate r.pathTemplate r.handler else none) <;> rfl
  rw [hone, Router.addRoute]
  by_cases hm : method = r.method
  · rw [if_pos hm]
    cases hroute : Route.ofTemplate r.pathTemplate r.handler with
    | none => simp
    | some route => simp [hm]
  · rw [if_neg hm]
    cases hroute : Route.ofTemplate r.pathTemplate r.handler with
    | none => simp
    | some route => simp [hm]

/-- A method has an entry where one of its templates compiles. -/
theorem registered_routes (regs : List (Registration η)) (method : HttpMethod) :
    (registered regs).routes method =
      if compiled method regs = [] then none else some (compiled method regs) := by
  induction regs using List.reverseRecOn with
  | nil => rfl
  | append_singleton regs r ih =>
    have happend : compiled method (regs ++ [r]) = compiled method regs ++ compiled method [r] :=
      List.filterMap_append
    have hlast : registered (regs ++ [r]) =
        (registered regs).addRoute r.method r.pathTemplate r.handler := by
      simp only [registered, List.foldl_append, List.foldl_cons, List.foldl_nil]
    rw [hlast, addRoute_routes, ih, happend]
    by_cases hone : compiled method [r] = []
    · rw [if_pos hone, hone, List.append_nil]
    · have hne : compiled method regs ++ compiled method [r] ≠ [] :=
        List.append_ne_nil_of_right_ne_nil _ hone
      rw [if_neg hone, if_neg hne]
      by_cases hregs : compiled method regs = []
      · rw [if_pos hregs, hregs]
        rfl
      · rw [if_neg hregs]
        rfl

/-- The handler of the first route that matches. -/
theorem dispatch_registered (regs : List (Registration η)) (req : HttpReq) :
    ((registered regs).dispatch req).2 =
      ((compiled req.method regs).find? fun r => (r.pattern (pathOf req.url)).isSome).map
        Route.handler := by
  have hfirst : (registered regs).firstMatch req.method (pathOf req.url) =
      (compiled req.method regs).findSome? fun r => (r.pattern (pathOf req.url)).map (r, ·) := by
    rw [Router.firstMatch, registered_routes]
    split
    · rename_i hnil
      rw [hnil]
      rfl
    · rfl
  have hfind : ∀ rs : List (Route η),
      (rs.find? fun r => (r.pattern (pathOf req.url)).isSome) =
        (rs.findSome? fun r => (r.pattern (pathOf req.url)).map (r, ·)).map Prod.fst := by
    intro rs
    induction rs with
    | nil => rfl
    | cons r rs ih =>
      rw [List.find?_cons, List.findSome?_cons]
      cases r.pattern (pathOf req.url) with
      | none => exact ih
      | some results => rfl
  rw [hfind, ← hfirst]
  cases hmatch : (registered regs).firstMatch req.method (pathOf req.url) with
  | none => exact Router.dispatch_of_none hmatch
  | some e =>
    obtain ⟨r, results⟩ := e
    rw [Router.dispatch_of_match hmatch]
    rfl

/-- `dispatch` is segment-wise matching: where every template of the request's method is plain or
    does not compile, the handler is that of the earliest plain template of the method which
    matches the url up to its first `?`, and there is none otherwise. -/
theorem dispatch_handler_eq (regs : List (Registration η)) (req : HttpReq)
    (hregs : ∀ r ∈ regs, r.method = req.method →
      isPlain r.pathTemplate = true ∨
        (Regex.compile (parsePathToRegex r.pathTemplate).1).isNone = true) :
    ((registered regs).dispatch req).2 =
      (regs.find? fun r => r.method = req.method && isPlain r.pathTemplate &&
        templateMatches r.pathTemplate (pathOf req.url)).map Registration.handler := by
  rw [dispatch_registered]
  induction regs with
  | nil => rfl
  | cons r regs ih =>
    have hrest := ih fun r' hr' => hregs r' (List.mem_cons_of_mem _ hr')
    rw [List.find?_cons]
    by_cases hm : r.method = req.method
    · by_cases hplain : isPlain r.pathTemplate = true
      · -- a plain template compiles
        obtain ⟨route, hroute, hhandler, hpattern⟩ := ofTemplate_plain hplain r.handler
        have hcompiled : compiled req.method (r :: regs) = route :: compiled req.method regs := by
          rw [compiled, List.filterMap_cons, if_pos hm.symm, hroute]
          rfl
        rw [hcompiled, List.find?_cons, hpattern, hplain, decide_eq_true hm, Bool.true_and,
          Bool.true_and]
        cases templateMatches r.pathTemplate (pathOf req.url) with
        | true => exact congrArg some hhandler
        | false => exact hrest
      · have hnone : Route.ofTemplate r.pathTemplate r.handler = none := by
          have hcompile := (hregs r List.mem_cons_self hm).resolve_left hplain
          rw [Route.ofTemplate, Option.isNone_iff_eq_none.mp hcompile]
          rfl
        have hcompiled : compiled req.method (r :: regs) = compiled req.method regs := by
          rw [compiled, List.filterMap_cons, if_pos hm.symm, hnone]
          rfl
        rw [hcompiled, Bool.eq_false_iff.mpr hplain, Bool.and_false, Bool.false_and]
        exact hrest
    · have hcompiled : compiled req.method (r :: regs) = compiled req.method regs := by
        rw [compiled, List.filterMap_cons, if_neg fun h => hm h.symm]
        rfl
      rw [hcompiled, decide_eq_false hm, Bool.false_and, Bool.false_and]
      exact hrest

/-- The routes of an example: two plain ones, one that does not compile and one of another
    method. -/
def someRoutes : List (Registration Nat) :=
  [⟨.get, str "/(/:id", 0⟩, ⟨.post, str "/test/.*", 1⟩, ⟨.get, str "/test/:test/address", 2⟩,
    ⟨.get, str "/test/:test/address/:address", 3⟩]

theorem dispatch_handler_eq_someRoutes :
    ((registered someRoutes).dispatch testRequest).2 = some 3 := by
  rw [dispatch_handler_eq someRoutes testRequest (by decide)]
  decide

end MyWebSocket
