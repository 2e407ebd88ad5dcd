import Mathlib.Data.List.Count

/-!
# Logs

A log is a list of entries that only grows at its end.  `Log.Grows P` says that what was added
meets `P`; `Log.NoneAfter P Q` says that no entry with `Q` stands behind one with `P`;
`Log.Has p` says that there is an entry with `p`; `Log.Each R` says that each entry is in the
relation `R` with what stands before and behind it.
-/

namespace Log

variable {α : Type*} {P Q : α → Prop} {t u v es : List α}

/-! ### Growth -/

/-- `u` is `t` with entries added that all meet `P`. -/
def Grows (P : α → Prop) (t u : List α) : Prop := ∃ es, u = t ++ es ∧ ∀ e ∈ es, P e

theorem Grows.refl (P : α → Prop) (t : List α) : Grows P t t := ⟨[], by simp⟩

theorem Grows.trans (h : Grows P t u) (h' : Grows P u v) : Grows P t v := by
  obtain ⟨es, rfl, hes⟩ := h
  obtain ⟨es', rfl, hes'⟩ := h'
  refine ⟨es ++ es', List.append_assoc _ _ _, ?_⟩
  intro e he
  rcases List.mem_append.mp he with h | h
  · exact hes e h
  · exact hes' e h

theorem Grows.append (t : List α) (h : ∀ e ∈ es, P e) : Grows P t (t ++ es) := ⟨es, rfl, h⟩

theorem Grows.mono (h : Grows P t u) (hPQ : ∀ e, P e → Q e) : Grows Q t u := by
  obtain ⟨es, rfl, hes⟩ := h
  exact ⟨es, rfl, fun e he => hPQ e (hes e he)⟩

theorem grows_append_iff : Grows P t (t ++ es) ↔ ∀ e ∈ es, P e := by
  refine ⟨?_, .append t⟩
  rintro ⟨fs, h, hfs⟩
  rw [List.append_cancel_left h]
  exact hfs

/-- What has been added before meets `P`: it is the rest that counts. -/
theorem Grows.iff_of_prefix (h : Grows P t u) (huv : u <+: v) : Grows P t v ↔ Grows P u v := by
  refine ⟨?_, h.trans⟩
  obtain ⟨es, rfl, -⟩ := h
  obtain ⟨fs, rfl⟩ := huv
  rw [List.append_assoc, grows_append_iff, ← List.append_assoc, grows_append_iff]
  exact fun hall e he => hall e (List.mem_append_right es he)

instance [DecidableEq α] [DecidablePred P] : Decidable (Grows P t u) :=
  decidable_of_iff (t <+: u ∧ ∀ e ∈ u.drop t.length, P e) <| by
    constructor
    · rintro ⟨⟨es, rfl⟩, hes⟩
      rw [List.drop_left] at hes
      exact .append t hes
    · rintro ⟨es, rfl, hes⟩
      rw [List.drop_left]
      exact ⟨List.prefix_append t es, hes⟩

/-- An entry that does not meet `P` was there before. -/
theorem Grows.mem_iff (h : Grows P t u) {a : α} (ha : ¬ P a) : a ∈ u ↔ a ∈ t := by
  obtain ⟨es, rfl, hes⟩ := h
  rw [List.mem_append, or_iff_left_iff_imp]
  exact fun hmem => absurd (hes a hmem) ha

theorem Grows.count_le [DecidableEq α] (h : Grows P t u) (a : α) : t.count a ≤ u.count a := by
  obtain ⟨es, rfl, -⟩ := h
  rw [List.count_append]
  exact Nat.le_add_right _ _

/-- An entry that does not meet `P` is there as often as before. -/
theorem Grows.count_eq [DecidableEq α] (h : Grows P t u) {a : α} (ha : ¬ P a) :
    u.count a = t.count a := by
  obtain ⟨es, rfl, hes⟩ := h
  have hzero : es.count a = 0 := List.count_eq_zero.mpr fun hmem => ha (hes a hmem)
  rw [List.count_append, hzero, Nat.add_zero]

/-! ### Order -/

/-- No entry with `Q` stands behind an entry with `P`. -/
def NoneAfter (P Q : α → Prop) (t : List α) : Prop := t.Pairwise fun a b => P a → ¬ Q b

theorem noneAfter_nil : NoneAfter P Q [] := List.Pairwise.nil

theorem noneAfter_append :
    NoneAfter P Q (t ++ es) ↔
      NoneAfter P Q t ∧ NoneAfter P Q es ∧ ∀ a ∈ t, P a → ∀ b ∈ es, ¬ Q b := by
  unfold NoneAfter
  rw [List.pairwise_append]
  refine and_congr_right fun _ => and_congr_right fun _ => ?_
  exact ⟨fun h a ha hp b hb => h a ha b hb hp, fun h a ha b hb hp => h a ha hp b hb⟩

/-- Entries without `Q` do no harm. -/
theorem NoneAfter.grows (h : NoneAfter P Q t) (hg : Grows (fun e => ¬ Q e) t u) :
    NoneAfter P Q u := by
  obtain ⟨es, rfl, hes⟩ := hg
  refine noneAfter_append.mpr ⟨h, ?_, fun _ _ _ b hb => hes b hb⟩
  exact List.pairwise_of_forall_mem_list fun _ _ b hb _ => hes b hb

/-- Neither do entries without `P`, as long as none with `P` was there. -/
theorem NoneAfter.grows_of_forall (ht : ∀ a ∈ t, ¬ P a) (hg : Grows (fun e => ¬ P e) t u) :
    NoneAfter P Q u := by
  obtain ⟨es, rfl, hes⟩ := hg
  have hall : ∀ a ∈ t ++ es, ¬ P a := by
    intro a ha
    rcases List.mem_append.mp ha with h | h
    · exact ht a h
    · exact hes a h
  exact List.pairwise_of_forall_mem_list fun a ha _ _ hp => absurd hp (hall a ha)

/-- Once broken it stays broken. -/
theorem NoneAfter.of_grows (h : NoneAfter P Q u) (hg : Grows (fun _ => True) t u) :
    NoneAfter P Q t := by
  obtain ⟨es, rfl, -⟩ := hg
  exact (noneAfter_append.mp h).1

/-- An entry with `Q` behind one with `P`. -/
theorem not_noneAfter {a b : α} (ha : a ∈ t) (hp : P a) (hb : b ∈ es) (hq : Q b) :
    ¬ NoneAfter P Q (t ++ es) :=
  fun h => (noneAfter_append.mp h).2.2 a ha hp b hb hq

instance [DecidablePred P] [DecidablePred Q] : Decidable (NoneAfter P Q t) := by
  unfold NoneAfter
  infer_instance

/-! ### Some entry -/

/-- There is an entry with `p`. -/
def Has (p : α → Bool) (t : List α) : Prop := ∃ e ∈ t, p e = true

variable {p : α → Bool}

instance : Decidable (Has p t) := by
  unfold Has
  infer_instance

theorem has_append : Has p (t ++ u) ↔ Has p t ∨ Has p u := by
  simp only [Has, List.mem_append, or_and_right, exists_or]

theorem has_singleton {e : α} : Has p [e] ↔ p e = true := by
  simp only [Has, List.mem_singleton, exists_eq_left]

theorem Has.mono (h : Has p t) (hsub : t ⊆ u) : Has p u := by
  obtain ⟨e, he, hp⟩ := h
  exact ⟨e, hsub he, hp⟩

/-- Entries without `p` change nothing. -/
theorem has_append_of_forall (h : ∀ e ∈ es, p e = false) : Has p (t ++ es) ↔ Has p t := by
  rw [has_append, or_iff_left_iff_imp]
  rintro ⟨e, he, hp⟩
  rw [h e he] at hp
  exact absurd hp Bool.false_ne_true

/-! ### Entries in their place -/

/-- Each entry is in the relation `R` with what stands before it and behind it. -/
def Each (R : List α → α → List α → Prop) (t : List α) : Prop :=
  ∀ pre e post, t = pre ++ e :: post → R pre e post

variable {R : List α → α → List α → Prop}

theorem each_nil : Each R [] := by
  intro pre e post h
  simp at h

/-- Entries are added: the old ones stay in the relation, the new ones are in it. -/
theorem Each.append (h : Each R t)
    (hold : ∀ pre e post, t = pre ++ e :: post → R pre e post → R pre e (post ++ es))
    (hnew : ∀ pre e post, es = pre ++ e :: post → R (t ++ pre) e post) : Each R (t ++ es) := by
  intro pre e post heq
  rcases List.append_eq_append_iff.mp heq with ⟨a, rfl, hes⟩ | ⟨c, ht, hc⟩
  · exact hnew a e post hes
  · rcases List.cons_eq_append_iff.mp hc with ⟨rfl, hes⟩ | ⟨d, rfl, rfl⟩
    · -- the first of the new ones
      obtain rfl : t = pre := by simpa using ht
      have hfirst := hnew [] e post hes
      rw [List.append_nil] at hfirst
      exact hfirst
    · exact hold pre e d ht (h pre e d ht)

/-- What holds between each entry and those behind it holds pairwise. -/
theorem Each.pairwise {S : α → α → Prop} (h : Each R t)
    (hS : ∀ pre e post, t = pre ++ e :: post → R pre e post → ∀ b ∈ post, S e b) :
    t.Pairwise S := by
  -- by induction on the part behind, since `R` speaks of all that stands before an entry
  have hsplit : ∀ pre post, t = pre ++ post → post.Pairwise S := by
    intro pre post
    induction post generalizing pre with
    | nil => exact fun _ => .nil
    | cons e post ih =>
      intro heq
      refine .cons (hS pre e post heq (h pre e post heq)) (ih (pre ++ [e]) ?_)
      rw [heq, List.append_assoc, List.singleton_append]
  exact hsplit [] t rfl

end Log
