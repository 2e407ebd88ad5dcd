import Mathlib.Data.List.Basic
import Mathlib.Tactic.Common

/-!
# Lists whose elements may come in fragments

Some elements carry data: `piece k d` is an element of kind `k` with the data `d`.  A list `es'`
is a fragmented form of a list `es` if it is `es` with such elements cut into consecutive
elements of the same kind, whose data joined is that of the whole.
-/

namespace Fragments

variable {ε κ β : Type*} {piece : κ → List β → ε} {as bs cs es es' : List ε}

/-- `es'` is `es` with elements in fragments. -/
inductive Fragmented (piece : κ → List β → ε) : List ε → List ε → Prop
  | nil : Fragmented piece [] []
  | cons (e : ε) {es' es : List ε} (h : Fragmented piece es' es) :
    Fragmented piece (e :: es') (e :: es)
  /-- The first fragment of an element is cut off. -/
  | cut (k : κ) (d x : List β) {es' es : List ε} (h : Fragmented piece es' (piece k x :: es)) :
    Fragmented piece (piece k d :: es') (piece k (d ++ x) :: es)

namespace Fragmented

theorem refl (piece : κ → List β → ε) (es : List ε) : Fragmented piece es es := by
  induction es with
  | nil => exact .nil
  | cons e es ih => exact .cons e ih

theorem append (h : Fragmented piece as es) (h' : Fragmented piece bs es') :
    Fragmented piece (as ++ bs) (es ++ es') := by
  induction h with
  | nil => exact h'
  | cons e _ ih => exact .cons e ih
  | cut k d x _ ih => exact .cut k d x ih

/-- Fragments of fragments. -/
theorem trans (hinj : ∀ k k' d d', piece k d = piece k' d' → k = k' ∧ d = d')
    (h : Fragmented piece as bs) (h' : Fragmented piece bs cs) : Fragmented piece as cs := by
  induction hn : as.length generalizing as bs cs with
  | zero =>
    rw [List.length_eq_zero_iff] at hn
    subst hn
    cases h
    exact h'
  | succ n ih =>
    -- the first element of `as` is a fragment of that of `bs`, or is the same
    cases h' with
    | nil =>
      cases h
      cases hn
    | cons e h' =>
      generalize hbs : e :: _ = bs at h
      cases h with
      | nil => cases hbs
      | cons e' h =>
        cases hbs
        exact .cons e (ih h h' (Nat.succ.inj hn))
      | cut k d x h =>
        cases hbs
        exact .cut k d x (ih h (.cons _ h') (Nat.succ.inj hn))
    | cut k d x h' =>
      generalize hbs : piece k d :: _ = bs at h
      cases h with
      | nil => cases hbs
      | cons e h =>
        cases hbs
        exact .cut k d x (ih h h' (Nat.succ.inj hn))
      | cut k' d₁ d₂ h =>
        obtain ⟨hpiece, rfl⟩ := List.cons.inj hbs
        obtain ⟨rfl, rfl⟩ := hinj _ _ _ _ hpiece
        rw [List.append_assoc]
        exact .cut k d₁ (d₂ ++ x) (ih h (.cut k d₂ x h') (Nat.succ.inj hn))

/-- **Additive observations.**  What cannot tell an element from its first fragment followed by
    the rest of it cannot tell the two lists apart. -/
theorem foldl_eq {τ : Type*} {f : τ → ε → τ}
    (hf : ∀ t k d x, f (f t (piece k d)) (piece k x) = f t (piece k (d ++ x)))
    (h : Fragmented piece es' es) (t : τ) : es'.foldl f t = es.foldl f t := by
  induction h generalizing t with
  | nil => rfl
  | cons e _ ih => exact ih (f t e)
  | cut k d x _ ih =>
    rw [List.foldl_cons, ih, List.foldl_cons, List.foldl_cons, hf]

/-- Elements that do not come in fragments are in both lists. -/
theorem mem_iff {e : ε} (he : ∀ k d, e ≠ piece k d) (h : Fragmented piece es' es) :
    e ∈ es' ↔ e ∈ es := by
  induction h with
  | nil => exact Iff.rfl
  | cons e' _ ih => rw [List.mem_cons, List.mem_cons, ih]
  | cut k d x _ ih =>
    rw [List.mem_cons, ih, List.mem_cons, List.mem_cons]
    simp only [he, false_or]

end Fragmented

end Fragments
