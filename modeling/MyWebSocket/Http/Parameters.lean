import Mathlib.Algebra.BigOperators.Group.List.Basic
import MyWebSocket.Http.Template

namespace MyWebSocket

open Regex (Cursor isWord)

/-!
# The parameters of a template

Templates of literal text, `:name` and `:name(R)`, where R may be any text at all, and the names
`parse_path_to_regex` finds in them: those of the parameters, and behind each of them those its
expression adds (`namesFrom_params`).
-/

/-- A parameter with the literal text behind it.  A plain `:name` is one that no character of a
    name and no expression in parentheses follows. -/
structure Param where
  name : Bytes
  custom : Option Bytes
  after : Bytes
  name_ne : name ≠ []
  name_word : ∀ b ∈ name, isWord b = true
  after_literal : (0x3A : UInt8) ∉ after
  plain_ends : custom = none → EndsName after ∧ after.head? ≠ some 0x28

/-- A template. -/
structure Template where
  lead : Bytes
  params : List Param
  lead_literal : (0x3A : UInt8) ∉ lead

namespace Param

/-- The expression of the parameter in its parentheses. -/
def customText (p : Param) : Bytes := p.custom.elim [] fun r => 0x28 :: r ++ [0x29]

def text (p : Param) : Bytes := 0x3A :: (p.name ++ (p.customText ++ p.after))

/-- The expression its group should have. -/
def pattern (p : Param) : Bytes := p.custom.getD (str "[^/]+")

/-- What the parameter should become. -/
def expected (p : Param) : Bytes := 0x28 :: (p.pattern ++ 0x29 :: p.after)

end Param

def Template.text (t : Template) : Bytes := t.lead ++ t.params.flatMap Param.text

/-! ### Literal text -/

theorem inert_append {u v : Bytes} (hu : inert u = true) (hv : inert v = true) :
    inert (u ++ v) = true := by
  induction u with
  | nil => exact hv
  | cons b u ih =>
    rw [inert, Bool.and_eq_true] at hu
    rw [List.cons_append, inert, ih hu.2, Bool.and_true]
    cases u with
    | nil =>
      have hb : (b != 0x3A) = true := by simpa using hu.1
      rw [hb, Bool.true_or]
    | cons d u => exact hu.1

theorem inert_of_append {u v : Bytes} (h : inert (u ++ v) = true) : inert v = true := by
  induction u with
  | nil => exact h
  | cons b u ih =>
    rw [List.cons_append, inert, Bool.and_eq_true] at h
    exact ih h.2

/-- An expression without a parameter is inert with its parenthesis behind it. -/
theorem inert_close {r : Bytes} (h : hasParam r = false) : inert (r ++ [0x29]) = true := by
  induction r with
  | nil => decide
  | cons b r ih =>
    rw [hasParam, Bool.or_eq_false_iff] at h
    rw [List.cons_append, inert, ih h.2, Bool.and_true]
    by_cases hb : b = 0x3A
    · cases r with
      | nil =>
        rw [List.nil_append, List.head?_cons, Option.any_some]
        simp only [Bool.or_eq_true]
        exact Or.inr (by decide)
      | cons d r =>
        have hd : isWord d = false := by simpa [startsParam, hb] using h.1
        simp [hd]
    · simp [hb]

namespace Param

variable (p : Param)

theorem not_mem_name : (0x3A : UInt8) ∉ p.name := by
  intro h
  exact absurd (p.name_word _ h) (by decide)

theorem inert_name : inert p.name = true := inert_of_not_mem p.not_mem_name

theorem inert_after : inert p.after = true := inert_of_not_mem p.after_literal

/-- What comes behind the name does not belong to it. -/
theorem endsName {s : Bytes} (hs : EndsName s) : EndsName (p.customText ++ (p.after ++ s)) := by
  cases hcustom : p.custom with
  | none =>
    have hafter := (p.plain_ends hcustom).1
    rw [customText, hcustom, Option.elim_none, List.nil_append]
    cases hp : p.after with
    | nil => exact hs
    | cons b r =>
      rw [hp] at hafter
      exact hafter
  | some r =>
    rw [customText, hcustom]
    show Option.any isWord (some 0x28) = false
    rfl

theorem inert_custom (h : ∀ r ∈ p.custom, hasParam r = false) :
    inert (p.customText ++ p.after) = true := by
  refine inert_append ?_ p.inert_after
  cases hcustom : p.custom with
  | none => rw [customText, hcustom]; rfl
  | some r =>
    rw [customText, hcustom]
    exact inert_append (u := [0x28]) (by decide) (inert_close (h r (by rw [hcustom]; rfl)))

/-- The parameters do not go on with a character of a name. -/
theorem endsName_flatMap (ps : List Param) : EndsName (ps.flatMap text) := by
  cases ps with
  | nil => rfl
  | cons p ps =>
    show Option.any isWord (some 0x3A) = false
    rfl

end Param

/-! ### The names -/

/-- The names of the template: behind each parameter's own those of its expression. -/
theorem namesFrom_params (ps : List Param) : ∀ {u : Bytes} {c : Cursor UInt8},
    c.rest = u ++ ps.flatMap Param.text → (0x3A : UInt8) ∉ u →
    ∃ ms : List (Param × List Bytes), ms.map Prod.fst = ps ∧
      namesFrom c = ms.flatMap (fun m => m.1.name :: m.2) ∧
      ∀ m ∈ ms, m.2 = [] ↔ ∀ r ∈ m.1.custom, hasParam r = false := by
  induction ps with
  | nil =>
    intro u c hrest hu
    obtain ⟨e, d, hd, he, hiff⟩ := namesFrom_append u hrest rfl
    have hnone : e = [] := hiff.mpr (hasParam_of_not_mem hu)
    refine ⟨[], rfl, ?_, by simp⟩
    rw [he, hnone, namesFrom_nil hd]
    rfl
  | cons p ps ih =>
    intro u c hrest hu
    obtain ⟨e, d, hd, he, hiff⟩ := namesFrom_append u hrest (Param.endsName_flatMap _)
    have hnone : e = [] := hiff.mpr (hasParam_of_not_mem hu)
    have hends := p.endsName (Param.endsName_flatMap ps)
    have hcolon : d.rest = 0x3A :: (p.name ++ (p.customText ++ (p.after ++ ps.flatMap Param.text)))
        := by
      rw [hd, List.flatMap_cons, Param.text]
      simp
    obtain ⟨d', hd', hname, -⟩ := param_hit hcolon p.name_ne p.name_word hends
    rw [he, hnone, List.nil_append, hname]
    -- the names inside the parentheses, and those behind them
    obtain ⟨e', d'', hd'', he', hiff'⟩ : ∃ (e : List Bytes) (d'' : Cursor UInt8),
        (∃ v : Bytes, d''.rest = v ++ ps.flatMap Param.text ∧ (0x3A : UInt8) ∉ v) ∧
        namesFrom d' = e ++ namesFrom d'' ∧
        (e = [] ↔ ∀ r ∈ p.custom, hasParam r = false) := by
      cases hcustom : p.custom with
      | none =>
        rw [Param.customText, hcustom] at hd'
        exact ⟨[], d', ⟨p.after, hd', p.after_literal⟩, rfl, by simp⟩
      | some r =>
        have hsplit : d'.rest = (0x28 :: r) ++ (0x29 :: (p.after ++ ps.flatMap Param.text)) := by
          rw [hd', Param.customText, hcustom]
          simp
        obtain ⟨e, d'', hd'', he, hiff⟩ := namesFrom_append (0x28 :: r) hsplit rfl
        refine ⟨e, d'', ⟨0x29 :: p.after, by rw [hd'']; rfl, ?_⟩, he, ?_⟩
        · rw [List.mem_cons, not_or]
          exact ⟨by decide, p.after_literal⟩
        · rw [hiff, hasParam]
          simp [startsParam]
    obtain ⟨v, hv, hcolon'⟩ := hd''
    obtain ⟨ms, hms, hnames, hall⟩ := ih hv hcolon'
    refine ⟨(p, e') :: ms, by rw [List.map_cons, hms], ?_, ?_⟩
    · rw [he', hnames]
      rfl
    · intro m hm
      rcases List.mem_cons.mp hm with rfl | hm
      · exact hiff'
      · exact hall m hm

/-- Pieces that are never shorter than they should be are seen in the length of the whole. -/
theorem length_eq_of_flatMap_eq {β γ : Type*} {f g : β → List γ} : ∀ {ms : List β},
    ms.flatMap f = ms.flatMap g → (∀ m ∈ ms, (g m).length ≤ (f m).length) →
    ∀ m ∈ ms, (f m).length = (g m).length := by
  intro ms h hle
  have hlen : (ms.map fun m => (f m).length).sum = (ms.map fun m => (g m).length).sum := by
    have hall := congrArg List.length h
    rwa [List.length_flatMap, List.length_flatMap] at hall
  clear h
  induction ms with
  | nil => simp
  | cons m ms ih =>
    have hhere := hle m List.mem_cons_self
    have hrest : ∀ m' ∈ ms, (g m').length ≤ (f m').length := by
      intro m' hm'
      exact hle m' (List.mem_cons_of_mem _ hm')
    have hsum := List.sum_le_sum hrest
    rw [List.map_cons, List.map_cons, List.sum_cons, List.sum_cons] at hlen
    intro m' hm'
    rcases List.mem_cons.mp hm' with rfl | hm'
    · omega
    · exact ih hrest (by omega) m' hm'

/-- The names are those of the parameters where their expressions add none. -/
theorem names_iff (t : Template) :
    (parsePathToRegex t.text).2 = t.params.map Param.name ↔
      ∀ p ∈ t.params, ∀ r ∈ p.custom, hasParam r = false := by
  obtain ⟨ms, hms, hnames, hall⟩ := namesFrom_params t.params
    (show (Cursor.start t.text).rest = t.lead ++ t.params.flatMap Param.text from rfl)
    t.lead_literal
  have hresult : (parsePathToRegex t.text).2 = ms.flatMap fun m => m.1.name :: m.2 := hnames
  rw [hresult, ← hms]
  have hadded : ms.flatMap (fun m => m.1.name :: m.2) = (ms.map Prod.fst).map Param.name ↔
      ∀ m ∈ ms, m.2 = [] := by
    have hmap : (ms.map Prod.fst).map Param.name = ms.flatMap fun m => [m.1.name] := by
      rw [List.map_map, List.map_eq_flatMap]
      rfl
    rw [hmap]
    constructor
    · intro h m hm
      have hlen := length_eq_of_flatMap_eq h (fun m' _ => by simp) m hm
      exact List.eq_nil_of_length_eq_zero (by simpa using hlen)
    · intro h
      refine List.flatMap_congr fun m hm => ?_
      rw [h m hm]
  rw [hadded, List.forall_mem_map]
  constructor
  · intro h m hm
    exact (hall m hm).mp (h m hm)
  · intro h m hm
    exact (hall m hm).mpr (h m hm)

end MyWebSocket
