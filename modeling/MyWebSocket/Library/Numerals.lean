import Mathlib.Data.Nat.Digits.Defs
import Mathlib.Tactic.Common

/-!
# Numerals read by Horner's rule

A numeral is read from its first digit on: the value so far is multiplied by the base, and the
digit is added.  A reader with a register of a limited width stops before a multiplication that
might not fit; `guarded_eq` says which numerals it accepts, and that it never wraps.
-/

namespace Numerals

/-- Horner's rule, from the value `v` on. -/
def horner (base v : Nat) (ds : List Nat) : Nat := ds.foldl (fun v d => v * base + d) v

/-- Horner's rule that does not multiply a value beyond `limit`. -/
def guarded (base limit v : Nat) (ds : List Nat) : Option Nat :=
  ds.foldlM (fun v d => if limit < v then none else some (v * base + d)) v

variable {base limit v : Nat} {d : Nat} {ds : List Nat}

@[simp] theorem horner_nil : horner base v [] = v := rfl

theorem horner_cons : horner base v (d :: ds) = horner base (v * base + d) ds := rfl

theorem guarded_cons : guarded base limit v (d :: ds) =
    if limit < v then none else guarded base limit (v * base + d) ds := by
  rw [guarded, List.foldlM_cons]
  split
  · rfl
  · rfl

/-- The value of a numeral, as Mathlib has it for the digits from the last one on. -/
theorem horner_eq_ofDigits (base : Nat) (ds : List Nat) :
    horner base 0 ds = Nat.ofDigits base ds.reverse := by
  have hfold : ∀ ds : List Nat, Nat.ofDigits base ds = ds.foldr (fun d v => v * base + d) 0 := by
    intro ds
    induction ds with
    | nil => rfl
    | cons d ds ih =>
      rw [Nat.ofDigits_cons, ih, List.foldr_cons, Nat.add_comm, Nat.mul_comm]
  rw [hfold, List.foldr_reverse, horner]

/-- Reading on does not make a value smaller. -/
theorem le_horner (hbase : 0 < base) : v ≤ horner base v ds := by
  induction ds generalizing v with
  | nil => exact le_refl v
  | cons d ds ih =>
    calc v ≤ v * base := Nat.le_mul_of_pos_right v hbase
      _ ≤ v * base + d := Nat.le_add_right _ _
      _ ≤ horner base (v * base + d) ds := ih

/-- **The numerals that are accepted**: those that are in range without their last digit. -/
theorem guarded_eq (hbase : 0 < base) (hds : ∀ d ∈ ds, d < base) :
    guarded base limit v ds =
      if ds = [] ∨ horner base v ds / base ≤ limit then some (horner base v ds) else none := by
  induction ds generalizing v with
  | nil => simp [guarded]
  | cons d ds ih =>
    have hd : d < base := hds d List.mem_cons_self
    have hshort : (v * base + d) / base = v := by
      rw [Nat.mul_comm, Nat.mul_add_div hbase, Nat.div_eq_of_lt hd, Nat.add_zero]
    have hmono : v ≤ horner base (v * base + d) ds / base := by
      calc v = (v * base + d) / base := hshort.symm
        _ ≤ horner base (v * base + d) ds / base := Nat.div_le_div_right (le_horner hbase)
    rw [guarded_cons, horner_cons, ih fun d' hd' => hds d' (List.mem_cons_of_mem d hd')]
    by_cases hlimit : limit < v
    · rw [if_pos hlimit, if_neg]
      rintro (hnil | hle)
      · exact List.cons_ne_nil d ds hnil
      · omega
    · rw [if_neg hlimit]
      congr 1
      rw [eq_iff_iff, or_iff_right (List.cons_ne_nil d ds), or_iff_right_iff_imp]
      -- one digit only
      rintro rfl
      rw [horner_nil, hshort]
      omega

end Numerals
