import Mathlib.Data.Finmap
import Mathlib.Data.List.Perm.Subperm
import Mathlib.Algebra.Order.BigOperators.Group.List
import Mathlib.Algebra.Order.Ring.Nat

/-!
# Maps filled entry by entry

A map into which entries are inserted one after another.  Where the first entry of a key wins,
the map is given by `List.lookup` in the list of entries (`lookup_foldl_insertNew`); where the
last one wins, by `List.lookup` in the reversed list (`lookup_foldl_insert`).

The last part compares two lists of entries: when a list arises from another one with distinct
keys by making keys smaller, the two give the same map only if they are the same list
(`eq_of_lookup_eq`).
-/

namespace Entries

variable {κ β : Type*} [DecidableEq κ]

/-- Insert an entry unless its key is there already, as `std::unordered_map::insert` does. -/
def insertNew (m : Finmap fun _ : κ => β) (e : κ × β) : Finmap fun _ : κ => β :=
  if e.1 ∈ m then m else m.insert e.1 e.2

theorem lookup_insertNew (m : Finmap fun _ : κ => β) (e : κ × β) (k : κ) :
    (insertNew m e).lookup k = (m.lookup k).or (if k = e.1 then some e.2 else none) := by
  unfold insertNew
  by_cases hmem : e.1 ∈ m
  · -- the key is there: the entry is dropped, and the lookup never falls through to it
    rw [if_pos hmem]
    by_cases hk : k = e.1
    · subst hk
      obtain ⟨b, hb⟩ := Finmap.mem_iff.mp hmem
      simp [hb]
    · simp [hk]
  · rw [if_neg hmem]
    by_cases hk : k = e.1
    · subst hk
      have hnone : m.lookup e.1 = none := Finmap.lookup_eq_none.mpr hmem
      rw [Finmap.lookup_insert, hnone]
      simp
    · rw [Finmap.lookup_insert_of_ne m hk]
      simp [hk]

/-- Entries of one key: all but the first are ignored. -/
theorem insertNew_insertNew (m : Finmap fun _ : κ => β) (k : κ) (b b' : β) :
    insertNew (insertNew m (k, b)) (k, b') = insertNew m (k, b) := by
  have hmem : k ∈ insertNew m (k, b) := by
    rw [Finmap.mem_iff]
    rcases hb : m.lookup k with _ | b₀
    · exact ⟨b, by simp [lookup_insertNew, hb]⟩
    · exact ⟨b₀, by simp [lookup_insertNew, hb]⟩
  rw [insertNew, if_pos hmem]

variable [BEq κ] [LawfulBEq κ]

/-- **The first entry wins.** -/
theorem lookup_foldl_insertNew (es : List (κ × β)) (m : Finmap fun _ : κ => β) (k : κ) :
    (es.foldl insertNew m).lookup k = (m.lookup k).or (es.lookup k) := by
  induction es generalizing m with
  | nil => simp
  | cons e es ih =>
    obtain ⟨k', b⟩ := e
    rw [List.foldl_cons, ih, lookup_insertNew, Option.or_assoc, List.lookup_cons]
    by_cases hk : k = k'
    · simp [hk]
    · have hbeq : (k == k') = false := beq_false_of_ne hk
      simp [hk, hbeq]

theorem lookup_isSome_iff {es : List (κ × β)} {k : κ} :
    (es.lookup k).isSome = true ↔ k ∈ es.map Prod.fst := by
  induction es with
  | nil => simp
  | cons e es ih =>
    obtain ⟨k', b⟩ := e
    rw [List.lookup_cons]
    by_cases hk : k = k'
    · simp [hk]
    · have hbeq : (k == k') = false := beq_false_of_ne hk
      simp [hk, hbeq, ih]

/-! ### The last entry wins -/

/-- **The last entry wins.** -/
theorem lookup_foldl_insert (es : List (κ × β)) (m : Finmap fun _ : κ => β) (k : κ) :
    (es.foldl (fun m e => m.insert e.1 e.2) m).lookup k =
      (es.reverse.lookup k).or (m.lookup k) := by
  induction es generalizing m with
  | nil => simp
  | cons e es ih =>
    obtain ⟨k', b⟩ := e
    rw [List.foldl_cons, ih, List.reverse_cons, List.lookup_append, Option.or_assoc]
    by_cases hk : k = k'
    · subst hk
      simp
    · have hbeq : (k == k') = false := beq_false_of_ne hk
      simp [Finmap.lookup_insert_of_ne m hk, List.lookup_cons, hbeq]

/-- Inserting the same entries into two maps gives the same map if and only if they agree on
    every other key. -/
theorem foldl_insert_eq_iff (es : List (κ × β)) (m m' : Finmap fun _ : κ => β) :
    es.foldl (fun m e => m.insert e.1 e.2) m = es.foldl (fun m e => m.insert e.1 e.2) m' ↔
      ∀ k, k ∉ es.map Prod.fst → m.lookup k = m'.lookup k := by
  have hnone : ∀ k, k ∉ es.map Prod.fst → es.reverse.lookup k = none := by
    intro k hk
    rw [← Option.not_isSome_iff_eq_none, lookup_isSome_iff]
    simpa using hk
  constructor
  · intro h k hk
    have hl := congrArg (fun m : Finmap fun _ : κ => β => m.lookup k) h
    simpa [lookup_foldl_insert, hnone k hk] using hl
  · intro h
    apply Finmap.ext_lookup
    intro k
    rw [lookup_foldl_insert, lookup_foldl_insert]
    by_cases hk : k ∈ es.map Prod.fst
    · -- the entries decide, whatever the two maps hold
      have hsome : (es.reverse.lookup k).isSome = true := by
        rw [lookup_isSome_iff]
        simpa using hk
      obtain ⟨b, hb⟩ := Option.isSome_iff_exists.mp hsome
      rw [hb, Option.some_or, Option.some_or]
    · rw [h k hk]

/-! ### Equal lookups -/

/-- With the same distinct keys in the same order, equal lookups mean equal values. -/
theorem eq_of_keys_eq {l l' : List (κ × β)} (hkeys : l.map Prod.fst = l'.map Prod.fst)
    (hnodup : (l'.map Prod.fst).Nodup) (h : ∀ k, l.lookup k = l'.lookup k) : l = l' := by
  induction l generalizing l' with
  | nil => exact (List.map_eq_nil_iff.mp hkeys.symm).symm
  | cons e l ih =>
    obtain ⟨k, b⟩ := e
    rcases l' with _ | ⟨⟨k', b'⟩, l'⟩
    · exact absurd hkeys (by simp)
    · obtain ⟨rfl, htail⟩ : k = k' ∧ l.map Prod.fst = l'.map Prod.fst := by simpa using hkeys
      obtain ⟨hk, hnodup⟩ := List.nodup_cons.mp hnodup
      have hb : b = b' := by simpa [List.lookup_cons] using h k
      have hrest : ∀ j, l.lookup j = l'.lookup j := by
        intro j
        by_cases hj : j = k
        · -- the key does not come again
          subst hj
          have hl' : l'.lookup j = none := by
            rw [← Option.not_isSome_iff_eq_none, lookup_isSome_iff]
            exact hk
          have hl : l.lookup j = none := by
            rw [← Option.not_isSome_iff_eq_none, lookup_isSome_iff, htail]
            exact hk
          rw [hl, hl']
        · have hbeq : (j == k) = false := beq_false_of_ne hj
          simpa [List.lookup_cons, hbeq] using h j
      rw [hb, ih htail hnodup hrest]

/-- Numbers that are at most others and sum up to the same are the same. -/
theorem eq_of_sum_eq {xs ys : List ℕ} (hle : List.Forall₂ (· ≤ ·) xs ys)
    (hsum : xs.sum = ys.sum) : xs = ys := by
  induction hle with
  | nil => rfl
  | @cons x y xs ys hxy hle ih =>
    have hrest : xs.sum ≤ ys.sum := hle.sum_le_sum
    rw [List.sum_cons, List.sum_cons] at hsum
    rw [ih (by omega), (by omega : x = y)]

/-- **Shrunken keys are noticed.**  If no key of `l` is larger than the key at its place in
    `l'`, keys of one size at one place are equal, and the keys of `l'` are distinct, then equal
    lookups mean equal lists. -/
theorem eq_of_lookup_eq (size : κ → ℕ) {l l' : List (κ × β)}
    (hle : List.Forall₂ (fun e e' => size e.1 ≤ size e'.1) l l')
    (hsize : List.Forall₂ (fun e e' => size e.1 = size e'.1 → e.1 = e'.1) l l')
    (hnodup : (l'.map Prod.fst).Nodup) (h : ∀ k, l.lookup k = l'.lookup k) : l = l' := by
  refine eq_of_keys_eq ?_ hnodup h
  -- every key of `l'` is one of `l`, and there are no more of these
  have hsub : l'.map Prod.fst ⊆ l.map Prod.fst := by
    intro k hk
    rw [← lookup_isSome_iff, h k, lookup_isSome_iff]
    exact hk
  have hperm : (l'.map Prod.fst).Perm (l.map Prod.fst) :=
    (hnodup.subperm hsub).perm_of_length_le (by simp [hle.length_eq])
  have hsum : (l.map fun e => size e.1).sum = (l'.map fun e => size e.1).sum := by
    have := (hperm.map size).sum_eq
    simpa [List.map_map, Function.comp_def] using this.symm
  have hsizes : (l.map fun e => size e.1) = l'.map fun e => size e.1 :=
    eq_of_sum_eq (by simpa [List.forall₂_map_left_iff, List.forall₂_map_right_iff] using hle) hsum
  clear hle hnodup h hsub hperm hsum
  induction hsize with
  | nil => rfl
  | cons hkey _ ih =>
    rw [List.map_cons, List.map_cons, List.cons.injEq] at hsizes
    rw [List.map_cons, List.map_cons, hkey hsizes.1, ih hsizes.2]

end Entries
