import Mathlib.Data.List.Perm.Basic
import Mathlib.Data.List.Nodup
import Mathlib.Data.List.Range

/-!
# Registries

A registry is a list of numbers to which an entry is added at the end, and from which one is
removed by putting the last entry in its place.

* `swapRemove_perm` — up to their order, the entries left are those of `List.erase`;
* `Registers` — the list holds each number below a bound with `p` once, and nothing else;
  `Registers.add` and `Registers.remove` say how the two operations keep that.
-/

namespace Registry

variable {α : Type*} [DecidableEq α]

/-- Put the last entry in the place of the first `a`, and take it from the end. -/
def swapRemove (xs : List α) (a : α) : List α :=
  match xs.getLast? with
  | none => xs
  | some b => if a ∈ xs then (xs.set (xs.idxOf a) b).dropLast else xs

/-- The order apart, this is `List.erase`. -/
theorem swapRemove_perm (xs : List α) (a : α) : (swapRemove xs a).Perm (xs.erase a) := by
  unfold swapRemove
  cases hlast : xs.getLast? with
  | none =>
    obtain rfl := List.getLast?_eq_none_iff.mp hlast
    exact .refl _
  | some b =>
    obtain ⟨ys, rfl⟩ := List.getLast?_eq_some_iff.mp hlast
    dsimp only
    by_cases hmem : a ∈ ys
    · -- `b` takes the place of `a`
      rw [if_pos (List.mem_append_left _ hmem), List.idxOf_append_of_mem hmem,
        List.set_append_left _ _ (List.idxOf_lt_length_of_mem hmem), List.dropLast_concat,
        List.erase_append_left _ hmem, List.erase_eq_eraseIdx_of_idxOf rfl]
      have hset := List.set_perm_cons_eraseIdx (List.idxOf_lt_length_of_mem hmem) b
      exact hset.trans (List.perm_append_singleton b _).symm
    · by_cases hab : a = b
      · -- `a` is the last entry itself
        subst hab
        rw [if_pos List.mem_concat_self, List.idxOf_append_of_notMem hmem,
          List.erase_append_right _ hmem]
        simp
      · have hnot : a ∉ ys ++ [b] := by simp [hmem, hab]
        rw [if_neg hnot, List.erase_of_not_mem hnot]

theorem count_swapRemove (xs : List α) (a b : α) :
    (swapRemove xs a).count b = xs.count b - if a = b then 1 else 0 := by
  rw [(swapRemove_perm xs a).count_eq, List.count_erase]
  simp

/-! ### Registries of numbers -/

/-- Each number below `n` with `p` is registered once, and nothing else is. -/
def Registers (n : Nat) (p : Nat → Bool) (xs : List Nat) : Prop :=
  ∀ i, xs.count i = if i < n ∧ p i = true then 1 else 0

variable {n : Nat} {p q : Nat → Bool} {xs : List Nat}

theorem registers_nil (p : Nat → Bool) : Registers 0 p [] := by
  intro i
  simp

theorem Registers.congr (h : Registers n p xs) (hpq : ∀ i < n, p i = q i) : Registers n q xs := by
  intro i
  rw [h i]
  by_cases hi : i < n
  · rw [hpq i hi]
  · simp [hi]

/-- Two conditions that agree at `a` and elsewhere agree. -/
theorem Registers.congr_at (h : Registers n p xs) {a : Nat} (ha : p a = q a)
    (hpq : ∀ i, i ≠ a → p i = q i) : Registers n q xs := by
  refine h.congr fun i _ => ?_
  by_cases hi : i = a
  · rw [hi]
    exact ha
  · exact hpq i hi

/-- A new number that is not registered. -/
theorem Registers.skip (h : Registers n p xs) (hpq : ∀ i < n, p i = q i) (hn : q n = false) :
    Registers (n + 1) q xs := by
  intro i
  rw [h.congr hpq i]
  by_cases hi : i = n
  · simp [hi, hn]
  · have hlt : i < n + 1 ↔ i < n := by omega
    simp only [hlt]

/-- A number is added. -/
theorem Registers.add (h : Registers n p xs) {a : Nat} (ha : a < n) (hp : p a = false)
    (hq : q a = true) (hpq : ∀ i, i ≠ a → p i = q i) : Registers n q (xs ++ [a]) := by
  intro i
  rw [List.count_append, h i]
  by_cases hi : i = a
  · subst hi
    simp [ha, hp, hq]
  · rw [hpq i hi, List.count_eq_zero.mpr (by simpa using hi), Nat.add_zero]

/-- A new number is registered. -/
theorem Registers.push (h : Registers n p xs) (hpq : ∀ i < n, p i = q i) (hn : q n = true) :
    Registers (n + 1) q (xs ++ [n]) := by
  have hskip : Registers (n + 1) (fun i => decide (i ≠ n) && q i) xs := by
    refine h.skip (fun i hi => ?_) (by simp)
    simp [hpq i hi, Nat.ne_of_lt hi]
  refine hskip.add (Nat.lt_succ_self n) (by simp) hn fun i hi => ?_
  simp [hi]

/-- A number is removed. -/
theorem Registers.remove (h : Registers n p xs) {a : Nat} (hq : q a = false)
    (hpq : ∀ i, i ≠ a → p i = q i) : Registers n q (swapRemove xs a) := by
  intro i
  rw [count_swapRemove, h i]
  by_cases hi : i = a
  · subst hi
    rw [if_pos rfl, hq]
    split <;> simp
  · rw [if_neg (Ne.symm hi), hpq i hi, Nat.sub_zero]

/-- The registry is as long as there are numbers with `p`. -/
theorem Registers.length_eq (h : Registers n p xs) : xs.length = (List.range n).countP p := by
  have hperm : xs.Perm ((List.range n).filter p) := by
    rw [List.perm_iff_count]
    intro i
    rw [h i]
    have hnodup : ((List.range n).filter p).Nodup := List.nodup_range.filter p
    split
    · rename_i hi
      exact (List.count_eq_one_of_mem hnodup (by simpa using hi)).symm
    · rename_i hi
      exact (List.count_eq_zero.mpr (by simpa using hi)).symm
  rw [hperm.length_eq, List.countP_eq_length_filter]

theorem Registers.lt_of_mem (h : Registers n p xs) {a : Nat} (ha : a ∈ xs) : a < n := by
  by_contra hlt
  have hcount := h a
  rw [if_neg fun hcond => hlt hcond.1] at hcount
  exact List.count_eq_zero.mp hcount ha

/-- Counting the positions of a list is counting its entries. -/
theorem countP_range_getElem? {β : Type*} (p : β → Bool) (ys : List β) :
    (List.range ys.length).countP (fun i => ys[i]?.any p) = ys.countP p := by
  have hmap : (List.range ys.length).map (ys[·]?) = ys.map some := by
    apply List.ext_getElem?
    intro i
    rw [List.getElem?_map, List.getElem?_map]
    by_cases hi : i < ys.length
    · simp [hi]
    · simp [hi]
  have hcount := List.countP_map (p := Option.any p) (f := (ys[·]?)) (l := List.range ys.length)
  rw [hmap, List.countP_map] at hcount
  exact hcount.symm

end Registry
