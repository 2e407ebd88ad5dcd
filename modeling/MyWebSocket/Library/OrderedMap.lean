import Mathlib.Algebra.BigOperators.Group.List.Basic
import Mathlib.Algebra.Order.Ring.Nat

/-!
# Maps as lists ordered by key

A `std::map` as the list of its entries in the order of iteration: the keys are strictly
increasing (`Ordered`).  `insert` is `std::map::insert`, which keeps an entry that is there, and
`assign` the assignment `m[key] = value`, which replaces it (`lookup_assign`).

A map is what is found in it (`Ordered.ext`), and entries inserted in any order make the same map
(`foldl_insert_of_perm`).
-/

namespace OrderedMap

variable {κ β : Type*} [LT κ]

/-- The keys are strictly increasing. -/
def Ordered (es : List (κ × β)) : Prop := (es.map Prod.fst).Pairwise (· < ·)

instance [DecidableLT κ] (es : List (κ × β)) : Decidable (Ordered es) :=
  inferInstanceAs (Decidable ((es.map Prod.fst).Pairwise (· < ·)))

theorem ordered_nil : Ordered ([] : List (κ × β)) := List.Pairwise.nil

theorem ordered_cons {e : κ × β} {es : List (κ × β)} :
    Ordered (e :: es) ↔ (∀ e' ∈ es, e.1 < e'.1) ∧ Ordered es := by
  simp [Ordered]

/-- Values may change under the keys. -/
theorem Ordered.map {es : List (κ × β)} (h : Ordered es) {γ : Type*} (f : β → γ) :
    Ordered (es.map fun e => (e.1, f e.2)) := by
  have hkeys : (es.map fun e => (e.1, f e.2)).map Prod.fst = es.map Prod.fst := by
    rw [List.map_map]
    rfl
  rw [Ordered, hkeys]
  exact h

theorem lookup_cons_eq_ite {α : Type*} [BEq α] (k : α) (e : α × β) (es : List (α × β)) :
    (e :: es).lookup k = if k == e.1 then some e.2 else es.lookup k := by
  rw [List.lookup_cons]
  cases k == e.1 with
  | true => rfl
  | false => rfl

/-- Under each key there is one entry. -/
theorem Ordered.mem_iff_lookup [BEq κ] [LawfulBEq κ] [Std.Irrefl (· < · : κ → κ → Prop)]
    {es : List (κ × β)} (h : Ordered es) (k : κ) (b : β) :
    (k, b) ∈ es ↔ es.lookup k = some b := by
  induction es with
  | nil => exact iff_of_false List.not_mem_nil (by simp)
  | cons e es ih =>
    obtain ⟨hlt, hes⟩ := ordered_cons.mp h
    rw [lookup_cons_eq_ite, List.mem_cons, ih hes]
    by_cases hk : k = e.1
    · subst hk
      have hnone : ¬ es.lookup e.1 = some b := by
        rw [← ih hes]
        exact fun hb => Std.Irrefl.irrefl e.1 (hlt (e.1, b) hb)
      rw [beq_self_eq_true, if_pos rfl, Option.some.injEq]
      constructor
      · rintro (heq | hb)
        · exact congrArg Prod.snd heq.symm
        · exact absurd hb hnone
      · rintro rfl
        exact Or.inl rfl
    · rw [beq_false_of_ne hk, if_neg Bool.false_ne_true, or_iff_right]
      exact fun heq => hk (congrArg Prod.fst heq)

theorem Ordered.eq_of_perm [Std.Asymm (· < · : κ → κ → Prop)] {es es' : List (κ × β)}
    (h : Ordered es) (h' : Ordered es') (hperm : es.Perm es') : es = es' := by
  refine hperm.eq_of_pairwise ?_ (List.pairwise_map.mp h) (List.pairwise_map.mp h')
  intro e e' _ _ hlt hlt'
  exact absurd hlt' (Std.Asymm.asymm _ _ hlt)

/-- No key occurs twice. -/
theorem Ordered.nodup [Std.Irrefl (· < · : κ → κ → Prop)] {es : List (κ × β)} (h : Ordered es) :
    (es.map Prod.fst).Nodup := by
  refine List.Pairwise.imp ?_ h
  rintro k k' hlt rfl
  exact Std.Irrefl.irrefl k hlt

/-- **A map is what is found in it.** -/
theorem Ordered.ext [BEq κ] [LawfulBEq κ] [Std.Asymm (· < · : κ → κ → Prop)]
    {es es' : List (κ × β)} (h : Ordered es) (h' : Ordered es')
    (hlookup : ∀ k, es.lookup k = es'.lookup k) : es = es' := by
  have hne : ∀ e e' : κ × β, e.1 ≠ e'.1 → e ≠ e' := fun e e' h heq => h (congrArg Prod.fst heq)
  have hnodup : es.Nodup := List.Pairwise.of_map Prod.fst hne h.nodup
  have hnodup' : es'.Nodup := List.Pairwise.of_map Prod.fst hne h'.nodup
  refine h.eq_of_perm h' ((List.perm_ext_iff_of_nodup hnodup hnodup').mpr fun e => ?_)
  rw [h.mem_iff_lookup e.1 e.2, h'.mem_iff_lookup e.1 e.2, hlookup]

variable [DecidableLT κ]

/-- Insert an entry unless its key is there already. -/
def insert (e : κ × β) : List (κ × β) → List (κ × β)
  | [] => [e]
  | e' :: es =>
    if e.1 < e'.1 then e :: e' :: es
    else if e'.1 < e.1 then e' :: insert e es
    else e' :: es

theorem mem_of_mem_insert {e x : κ × β} {es : List (κ × β)} (h : x ∈ insert e es) :
    x = e ∨ x ∈ es := by
  induction es with
  | nil => exact Or.inl (List.mem_singleton.mp h)
  | cons e' es ih =>
    rw [insert] at h
    split at h
    · exact List.mem_cons.mp h
    · split at h
      · rcases List.mem_cons.mp h with rfl | h
        · exact Or.inr List.mem_cons_self
        · exact (ih h).imp_right (List.mem_cons_of_mem e')
      · exact Or.inr h

/-- What the entries weigh: the new one is in or not. -/
theorem sum_insert_le (f : κ × β → ℕ) (e : κ × β) (es : List (κ × β)) :
    ((insert e es).map f).sum ≤ (es.map f).sum + f e := by
  induction es with
  | nil => simp [insert]
  | cons e' es ih =>
    rw [insert]
    split
    · simp only [List.map_cons, List.sum_cons]
      omega
    · split
      · simp only [List.map_cons, List.sum_cons]
        omega
      · exact Nat.le_add_right _ _

/-- Inserting keeps the order. -/
theorem Ordered.insert [Trans (· < · : κ → κ → Prop) (· < ·) (· < ·)] {es : List (κ × β)}
    (h : Ordered es) (e : κ × β) : Ordered (insert e es) := by
  induction es with
  | nil => exact ordered_cons.mpr ⟨fun _ h => absurd h List.not_mem_nil, ordered_nil⟩
  | cons e' es ih =>
    obtain ⟨hlt, hes⟩ := ordered_cons.mp h
    rw [OrderedMap.insert]
    split
    · next hnew =>
      refine ordered_cons.mpr ⟨fun x hx => ?_, h⟩
      rcases List.mem_cons.mp hx with rfl | hx
      · exact hnew
      · exact Trans.trans hnew (hlt x hx)
    · split
      · next hnew =>
        refine ordered_cons.mpr ⟨fun x hx => ?_, ih hes⟩
        rcases mem_of_mem_insert hx with rfl | hx
        · exact hnew
        · exact hlt x hx
      · exact h

theorem insert_perm [Std.Trichotomous (· < · : κ → κ → Prop)] {e : κ × β} {es : List (κ × β)}
    (hnew : ∀ e' ∈ es, e'.1 ≠ e.1) : (insert e es).Perm (e :: es) := by
  induction es with
  | nil => exact List.Perm.refl _
  | cons e' es ih =>
    obtain ⟨hne, hes⟩ := List.forall_mem_cons.mp hnew
    rw [insert]
    split
    · exact List.Perm.refl _
    · next hge =>
      split
      · exact ((ih hes).cons e').trans (List.Perm.swap e e' es)
      · next hle => exact absurd (Std.Trichotomous.trichotomous e'.1 e.1 hle hge) hne

/-- **Entries with different keys are all inserted**, beside those that are there already. -/
theorem foldl_insert_perm [Trans (· < · : κ → κ → Prop) (· < ·) (· < ·)]
    [Std.Trichotomous (· < · : κ → κ → Prop)] {es acc : List (κ × β)} (hacc : Ordered acc)
    (hkeys : (es.map Prod.fst).Nodup) (hdisjoint : ∀ e' ∈ acc, ∀ e ∈ es, e'.1 ≠ e.1) :
    Ordered (es.foldl (fun m e => insert e m) acc) ∧
      (es.foldl (fun m e => insert e m) acc).Perm (es ++ acc) := by
  induction es generalizing acc with
  | nil => exact ⟨hacc, List.Perm.refl _⟩
  | cons e es ih =>
    obtain ⟨hnot, hkeys⟩ := List.nodup_cons.mp hkeys
    have hnew : ∀ e' ∈ acc, e'.1 ≠ e.1 := fun e' he' => hdisjoint e' he' e List.mem_cons_self
    have hrest : ∀ e' ∈ insert e acc, ∀ x ∈ es, e'.1 ≠ x.1 := by
      intro e' he' x hx
      rcases mem_of_mem_insert he' with rfl | he'
      · exact fun heq => hnot (heq ▸ List.mem_map_of_mem hx)
      · exact hdisjoint e' he' x (List.mem_cons_of_mem e hx)
    obtain ⟨hordered, hperm⟩ := ih (hacc.insert e) hkeys hrest
    exact ⟨hordered, hperm.trans (((insert_perm hnew).append_left es).trans List.perm_middle)⟩

/-- **Entries inserted in any order make the map that has them.** -/
theorem foldl_insert_of_perm [Trans (· < · : κ → κ → Prop) (· < ·) (· < ·)]
    [Std.Asymm (· < · : κ → κ → Prop)] [Std.Trichotomous (· < · : κ → κ → Prop)]
    {es es' : List (κ × β)} (h : Ordered es) (hperm : es'.Perm es) :
    es'.foldl (fun m e => insert e m) [] = es := by
  have hkeys : (es'.map Prod.fst).Nodup := ((hperm.map Prod.fst).nodup_iff).mpr h.nodup
  obtain ⟨hordered, hfolded⟩ := foldl_insert_perm ordered_nil hkeys fun e' he' =>
    absurd he' List.not_mem_nil
  rw [List.append_nil] at hfolded
  exact hordered.eq_of_perm h (hfolded.trans hperm)

/-- Insert an entry, in place of the one with its key. -/
def assign (e : κ × β) : List (κ × β) → List (κ × β)
  | [] => [e]
  | e' :: es =>
    if e.1 < e'.1 then e :: e' :: es
    else if e'.1 < e.1 then e' :: assign e es
    else e :: es

theorem mem_of_mem_assign {e x : κ × β} {es : List (κ × β)} (h : x ∈ assign e es) :
    x = e ∨ x ∈ es := by
  induction es with
  | nil => exact Or.inl (List.mem_singleton.mp h)
  | cons e' es ih =>
    rw [assign] at h
    split at h
    · exact List.mem_cons.mp h
    · split at h
      · rcases List.mem_cons.mp h with rfl | h
        · exact Or.inr List.mem_cons_self
        · exact (ih h).imp_right (List.mem_cons_of_mem e')
      · exact (List.mem_cons.mp h).imp_right (List.mem_cons_of_mem e')

/-- Assigning keeps the order. -/
theorem Ordered.assign [Trans (· < · : κ → κ → Prop) (· < ·) (· < ·)]
    [Std.Trichotomous (· < · : κ → κ → Prop)] {es : List (κ × β)} (h : Ordered es) (e : κ × β) :
    Ordered (assign e es) := by
  induction es with
  | nil => exact ordered_cons.mpr ⟨fun _ h => absurd h List.not_mem_nil, ordered_nil⟩
  | cons e' es ih =>
    obtain ⟨hlt, hes⟩ := ordered_cons.mp h
    rw [OrderedMap.assign]
    split
    · next hnew =>
      refine ordered_cons.mpr ⟨fun x hx => ?_, h⟩
      rcases List.mem_cons.mp hx with rfl | hx
      · exact hnew
      · exact Trans.trans hnew (hlt x hx)
    · next hge =>
      split
      · next hnew =>
        refine ordered_cons.mpr ⟨fun x hx => ?_, ih hes⟩
        rcases mem_of_mem_assign hx with rfl | hx
        · exact hnew
        · exact hlt x hx
      · next hle =>
        rw [← Std.Trichotomous.trichotomous e.1 e'.1 hge hle] at hlt
        exact ordered_cons.mpr ⟨hlt, hes⟩

/-- **The entry assigned last is found under its key**, and the others as before. -/
theorem lookup_assign [BEq κ] [LawfulBEq κ] [Std.Irrefl (· < · : κ → κ → Prop)]
    [Std.Trichotomous (· < · : κ → κ → Prop)] (k : κ) (e : κ × β) (es : List (κ × β)) :
    (assign e es).lookup k = if k == e.1 then some e.2 else es.lookup k := by
  induction es with
  | nil => rw [assign, lookup_cons_eq_ite]
  | cons e' es ih =>
    rw [assign]
    split
    · rw [lookup_cons_eq_ite]
    · next hge =>
      split
      · next hlt =>
        have hne : e.1 ≠ e'.1 := by
          intro h
          rw [h] at hlt
          exact Std.Irrefl.irrefl e'.1 hlt
        rw [lookup_cons_eq_ite, lookup_cons_eq_ite k e' es, ih]
        by_cases hk : k = e.1
        · subst hk
          simp [hne]
        · simp [hk]
      · next hle =>
        obtain heq : e.1 = e'.1 := Std.Trichotomous.trichotomous e.1 e'.1 hge hle
        rw [lookup_cons_eq_ite, lookup_cons_eq_ite k e' es, heq]
        split
        · rfl
        · rfl

end OrderedMap
