import Mathlib.Logic.Basic

/-!
# Machines with labelled steps

A machine takes one labelled step at a time; a label that is not possible in a state has no
step there.  A run is a list of labels, chosen by whoever drives the machine.

* `exec_invariant` — what every step keeps holds after every run;
* `exec_rel` — states that step alike run alike;
* `AllSteps` — a condition on the states and labels of a run; `allSteps_congr` exchanges
  conditions that agree wherever an invariant holds;
* `noting` — the machine with a record of what happens, which it does not look at;
* `exec_dichotomy` — where good states stay good under steps that meet the condition, become
  bad under any other step, and bad states stay bad, the condition decides how a run ends.
-/

/-- A step function over labels. -/
structure Machine (σ ℓ : Type*) where
  step : σ → ℓ → Option σ

namespace Machine

variable {σ ℓ : Type*} (M : Machine σ ℓ)

/-- Take the steps of a list one after another. -/
def exec : σ → List ℓ → Option σ
  | s, [] => some s
  | s, l :: ls => (M.step s l).bind fun s' => exec s' ls

@[simp] theorem exec_nil (s : σ) : M.exec s [] = some s := rfl

theorem exec_cons (s : σ) (l : ℓ) (ls : List ℓ) :
    M.exec s (l :: ls) = (M.step s l).bind fun s' => M.exec s' ls := rfl

/-- A run that starts with a step. -/
theorem exec_cons_eq_some {s s' : σ} {l : ℓ} {ls : List ℓ} :
    M.exec s (l :: ls) = some s' ↔ ∃ t, M.step s l = some t ∧ M.exec t ls = some s' := by
  rw [exec_cons, Option.bind_eq_some_iff]

/-- A property that every step keeps holds after every run. -/
theorem exec_invariant {I : σ → Prop} (hstep : ∀ s l s', I s → M.step s l = some s' → I s')
    {s s' : σ} {ls : List ℓ} (hs : I s) (h : M.exec s ls = some s') : I s' := by
  induction ls generalizing s with
  | nil =>
    obtain rfl : s = s' := Option.some.inj h
    exact hs
  | cons l ls ih =>
    obtain ⟨t, hl, ht⟩ := (M.exec_cons_eq_some).mp h
    exact ih (hstep s l t hs hl) ht

/-- **Related states run alike** if every step is possible in both or in neither and leads to
    related states. -/
theorem exec_rel {R : σ → σ → Prop}
    (hstep : ∀ s t l, R s t → Option.Rel R (M.step s l) (M.step t l)) {s t : σ} (h : R s t)
    (ls : List ℓ) : Option.Rel R (M.exec s ls) (M.exec t ls) := by
  induction ls generalizing s t with
  | nil => exact .some h
  | cons l ls ih =>
    have hl := hstep s t l h
    rw [exec_cons, exec_cons]
    cases hs : M.step s l with
    | none =>
      rw [hs] at hl
      cases ht : M.step t l with
      | none => exact .none
      | some t' =>
        rw [ht] at hl
        cases hl
    | some s' =>
      rw [hs] at hl
      cases ht : M.step t l with
      | none =>
        rw [ht] at hl
        cases hl
      | some t' =>
        rw [ht] at hl
        cases hl with
        | some hrel => exact ih hrel

/-! ### Conditions on the steps of a run -/

/-- Every step of the run meets `P`, a condition on the state before it and its label. -/
def AllSteps (P : σ → ℓ → Prop) : σ → List ℓ → Prop
  | _, [] => True
  | s, l :: ls => P s l ∧ ∀ s', M.step s l = some s' → AllSteps P s' ls

theorem allSteps_cons {P : σ → ℓ → Prop} {s s' : σ} {l : ℓ} (hl : M.step s l = some s')
    (ls : List ℓ) : M.AllSteps P s (l :: ls) ↔ P s l ∧ M.AllSteps P s' ls := by
  rw [AllSteps]
  refine and_congr_right fun _ => ⟨fun h => h s' hl, fun h t ht => ?_⟩
  obtain rfl : s' = t := Option.some.inj (hl.symm.trans ht)
  exact h

instance decidableAllSteps {P : σ → ℓ → Prop} [∀ s l, Decidable (P s l)] :
    ∀ (s : σ) (ls : List ℓ), Decidable (M.AllSteps P s ls)
  | _, [] => isTrue trivial
  | s, l :: ls =>
    match hl : M.step s l with
    | none => decidable_of_iff (P s l) (by simp [AllSteps, hl])
    | some s' =>
      have : Decidable (M.AllSteps P s' ls) := decidableAllSteps s' ls
      decidable_of_iff _ (M.allSteps_cons hl ls).symm

/-- A condition on the labels alone. -/
theorem allSteps_of_forall {Q : ℓ → Prop} {ls : List ℓ} (h : ∀ l ∈ ls, Q l) (s : σ) :
    M.AllSteps (fun _ l => Q l) s ls := by
  induction ls generalizing s with
  | nil => trivial
  | cons l ls ih =>
    obtain ⟨hl, hls⟩ := List.forall_mem_cons.mp h
    exact ⟨hl, fun s' _ => ih hls s'⟩

/-- The step behind a part of the run meets `P`. -/
theorem AllSteps.of_append {P : σ → ℓ → Prop} {s t : σ} {l : ℓ} {ls ls' : List ℓ}
    (h : M.AllSteps P s (ls ++ l :: ls')) (ht : M.exec s ls = some t) : P t l := by
  induction ls generalizing s with
  | nil =>
    obtain rfl : s = t := Option.some.inj ht
    exact h.1
  | cons k ls ih =>
    obtain ⟨u, hu, ht⟩ := (M.exec_cons_eq_some).mp ht
    exact ih (h.2 u hu) ht

/-- The beginning of a run meets what the run meets. -/
theorem AllSteps.left {P : σ → ℓ → Prop} {s : σ} {ls ls' : List ℓ}
    (h : M.AllSteps P s (ls ++ ls')) : M.AllSteps P s ls := by
  induction ls generalizing s with
  | nil => trivial
  | cons l ls ih => exact ⟨h.1, fun t ht => ih (h.2 t ht)⟩

/-- A run that does not meet `P` throughout has a step that does not. -/
theorem exists_of_not_allSteps {P : σ → ℓ → Prop} {s s' : σ} {ls : List ℓ}
    (h : M.exec s ls = some s') (hP : ¬ M.AllSteps P s ls) :
    ∃ ls₁ l ls₂ t u, ls = ls₁ ++ l :: ls₂ ∧ M.exec s ls₁ = some t ∧ ¬ P t l ∧
      M.step t l = some u ∧ M.exec u ls₂ = some s' := by
  induction ls generalizing s with
  | nil => exact absurd trivial hP
  | cons l ls ih =>
    obtain ⟨u, hl, hu⟩ := (M.exec_cons_eq_some).mp h
    by_cases hp : P s l
    · have hrest : ¬ M.AllSteps P u ls := fun hall => hP ((M.allSteps_cons hl ls).mpr ⟨hp, hall⟩)
      obtain ⟨ls₁, l', ls₂, t, v, rfl, ht, hnot, hv, hend⟩ := ih hu hrest
      exact ⟨l :: ls₁, l', ls₂, t, v, rfl, (M.exec_cons_eq_some).mpr ⟨u, hl, ht⟩, hnot, hv, hend⟩
    · exact ⟨[], l, ls, s, u, rfl, rfl, hp, hl, hu⟩

/-- Two runs one after the other. -/
theorem exec_append {s t s' : σ} {ls ls' : List ℓ} (h : M.exec s ls = some t)
    (h' : M.exec t ls' = some s') : M.exec s (ls ++ ls') = some s' := by
  induction ls generalizing s with
  | nil =>
    obtain rfl : s = t := Option.some.inj h
    exact h'
  | cons l ls ih =>
    obtain ⟨u, hl, hu⟩ := (M.exec_cons_eq_some).mp h
    exact (M.exec_cons_eq_some).mpr ⟨u, hl, ih hu⟩

/-- Conditions that agree in every state with `I` are met by the same runs, if the steps that meet
    the one keep `I`. -/
theorem allSteps_congr_of {P Q : σ → ℓ → Prop} {I : σ → Prop}
    (hstep : ∀ s l s', I s → P s l → M.step s l = some s' → I s')
    (hPQ : ∀ s l, I s → (P s l ↔ Q s l)) {s : σ} (hs : I s) (ls : List ℓ) :
    M.AllSteps P s ls ↔ M.AllSteps Q s ls := by
  induction ls generalizing s with
  | nil => exact Iff.rfl
  | cons l ls ih =>
    rw [AllSteps, AllSteps, ← hPQ s l hs]
    apply and_congr_right
    intro hp
    exact forall_congr' fun t => forall_congr' fun ht => ih (hstep s l t hs hp ht)

/-- Conditions that agree in every state with `I`, which every step keeps, are met by the same
    runs. -/
theorem allSteps_congr {P Q : σ → ℓ → Prop} {I : σ → Prop}
    (hstep : ∀ s l s', I s → M.step s l = some s' → I s') (hPQ : ∀ s l, I s → (P s l ↔ Q s l))
    {s : σ} (hs : I s) (ls : List ℓ) : M.AllSteps P s ls ↔ M.AllSteps Q s ls :=
  M.allSteps_congr_of (fun s l s' hI _ => hstep s l s' hI) hPQ hs ls

/-- A property that every step meeting `P` keeps holds after every run whose steps all meet
    `P`. -/
theorem exec_invariant_of_allSteps {P : σ → ℓ → Prop} {I : σ → Prop}
    (hstep : ∀ s l s', I s → P s l → M.step s l = some s' → I s') {s s' : σ} {ls : List ℓ}
    (hs : I s) (hP : M.AllSteps P s ls) (h : M.exec s ls = some s') : I s' := by
  induction ls generalizing s with
  | nil =>
    obtain rfl : s = s' := Option.some.inj h
    exact hs
  | cons l ls ih =>
    obtain ⟨t, hl, ht⟩ := (M.exec_cons_eq_some).mp h
    obtain ⟨hp, hP⟩ := (M.allSteps_cons hl ls).mp hP
    exact ih (hstep s l t hs hp hl) hP ht

/-- **The condition decides.**  `I` is kept by steps that meet `P`; a step that does not leads
    to `B`, and `B` is never left. -/
theorem exec_dichotomy {P : σ → ℓ → Prop} {I B : σ → Prop}
    (hgood : ∀ s l s', I s → P s l → M.step s l = some s' → I s')
    (hbad : ∀ s l s', I s → ¬ P s l → M.step s l = some s' → B s')
    (hstable : ∀ s l s', B s → M.step s l = some s' → B s')
    {s s' : σ} {ls : List ℓ} (hs : I s) (h : M.exec s ls = some s') :
    I s' ∧ M.AllSteps P s ls ∨ B s' ∧ ¬ M.AllSteps P s ls := by
  induction ls generalizing s with
  | nil =>
    obtain rfl : s = s' := Option.some.inj h
    exact .inl ⟨hs, trivial⟩
  | cons l ls ih =>
    obtain ⟨t, hl, ht⟩ := (M.exec_cons_eq_some).mp h
    rw [M.allSteps_cons hl]
    -- the first step either keeps `I`, or leads to `B` for good
    by_cases hp : P s l
    · rcases ih (hgood s l t hs hp hl) ht with ⟨hI, hall⟩ | ⟨hB, hall⟩
      · exact .inl ⟨hI, hp, hall⟩
      · exact .inr ⟨hB, fun hcons => hall hcons.2⟩
    · refine .inr ⟨M.exec_invariant hstable (hbad s l t hs hp hl) ht, ?_⟩
      exact fun hcons => hp hcons.1

/-- Where `B` excludes what `I` gives, a property of the last state is equivalent to the
    condition on the steps. -/
theorem exec_iff_allSteps {P : σ → ℓ → Prop} {I B Q : σ → Prop}
    (hgood : ∀ s l s', I s → P s l → M.step s l = some s' → I s')
    (hbad : ∀ s l s', I s → ¬ P s l → M.step s l = some s' → B s')
    (hstable : ∀ s l s', B s → M.step s l = some s' → B s')
    (hIQ : ∀ s, I s → Q s) (hBQ : ∀ s, B s → ¬ Q s)
    {s s' : σ} {ls : List ℓ} (hs : I s) (h : M.exec s ls = some s') :
    Q s' ↔ M.AllSteps P s ls := by
  rcases M.exec_dichotomy hgood hbad hstable hs h with ⟨hI, hall⟩ | ⟨hB, hall⟩
  · exact iff_of_true (hIQ s' hI) hall
  · exact iff_of_false (hBQ s' hB) hall

/-! ### Records -/

variable {γ : Type*}

/-- The machine with a record that every step adds to. -/
def noting (note : γ → σ → ℓ → γ) : Machine (σ × γ) ℓ :=
  ⟨fun x l => (M.step x.1 l).map (·, note x.2 x.1 l)⟩

variable {note : γ → σ → ℓ → γ}

theorem noting_step_eq_some {x x' : σ × γ} {l : ℓ} :
    (M.noting note).step x l = some x' ↔
      M.step x.1 l = some x'.1 ∧ x'.2 = note x.2 x.1 l := by
  obtain ⟨s', g'⟩ := x'
  simp only [noting, Option.map_eq_some_iff, Prod.mk.injEq]
  constructor
  · rintro ⟨t, ht, rfl, rfl⟩
    exact ⟨ht, rfl⟩
  · rintro ⟨hs, rfl⟩
    exact ⟨s', hs, rfl, rfl⟩

/-- The record changes nothing in what a run meets. -/
theorem allSteps_noting (note : γ → σ → ℓ → γ) {P : σ → ℓ → Prop} (x : σ × γ) (ls : List ℓ) :
    (M.noting note).AllSteps (fun x l => P x.1 l) x ls ↔ M.AllSteps P x.1 ls := by
  induction ls generalizing x with
  | nil => exact Iff.rfl
  | cons l ls ih =>
    rw [AllSteps, AllSteps]
    apply and_congr_right
    intro _
    constructor
    · intro h s' hs
      exact (ih _).mp (h (s', note x.2 x.1 l) (M.noting_step_eq_some.mpr ⟨hs, rfl⟩))
    · intro h y hy
      exact (ih y).mpr (h y.1 (M.noting_step_eq_some.mp hy).1)

end Machine
