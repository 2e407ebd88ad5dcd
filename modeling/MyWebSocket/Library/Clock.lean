import Mathlib.Algebra.Order.Ring.Int
import Mathlib.Algebra.Order.Ring.Nat

/-!
# A clock of 64 bits

Times and durations of a `std::chrono` clock that counts nanoseconds in a signed 64-bit integer.
Conversions and sums wrap.

A sum that starts inside 64 bits and only grows is compared with a reading as the exact sum is
unless it leaves 64 bits and comes back below the reading (`wrapped_lt_iff_iff`).
-/

namespace Clock

/-- A number of seconds, in nanoseconds. -/
def seconds (n : Int64) : Int64 := n * 1000000000

/-- A number of hours, in nanoseconds. -/
def hours (n : Int64) : Int64 := n * 3600000000000

/-- The whole seconds of a time, rounded towards zero: `to_time_t`. -/
def toTimeT (t : Int64) : Int64 := t / 1000000000

/-- What becomes of an integer in 64 bits. -/
def wrapped (n : Int) : Int := n.bmod (2 ^ 64)

theorem wrapped_eq_self {n : Int} (hlow : -2 ^ 63 ≤ n) (hhigh : n < 2 ^ 63) : wrapped n = n :=
  Int.bmod_eq_of_le (by omega) (by omega)

/-- A sum that leaves 64 bits once is negative. -/
theorem wrapped_neg {n : Int} (hlow : 2 ^ 63 ≤ n) (hhigh : n < 2 ^ 64) : wrapped n < 0 := by
  have h : wrapped n = n - 2 ^ 64 := by
    rw [wrapped, ← Int.sub_bmod_right]
    exact Int.bmod_eq_of_le (by omega) (by omega)
  omega

theorem toInt_bounds (t : Int64) : -2 ^ 63 ≤ t.toInt ∧ t.toInt < 2 ^ 63 :=
  ⟨t.le_toInt, t.toInt_lt⟩

theorem toInt_seconds (n : Int64) : (seconds n).toInt = wrapped (n.toInt * 10 ^ 9) := by
  rw [seconds, Int64.toInt_mul]
  rfl

theorem toInt_hours (n : Int64) : (hours n).toInt = wrapped (n.toInt * (3600 * 10 ^ 9)) := by
  rw [hours, Int64.toInt_mul]
  rfl

theorem toInt_add (s t : Int64) : (s + t).toInt = wrapped (s.toInt + t.toInt) := Int64.toInt_add s t

/-- Hours that wrap add what the exact hours do. -/
theorem toInt_add_hours (t n : Int64) :
    (t + hours n).toInt = wrapped (t.toInt + n.toInt * (3600 * 10 ^ 9)) := by
  rw [toInt_add, toInt_hours, wrapped, wrapped, Int.add_bmod_bmod, wrapped]

theorem toInt_toTimeT (t : Int64) : (toTimeT t).toInt = t.toInt.tdiv (10 ^ 9) := by
  rw [toTimeT, Int64.toInt_div_of_ne_right]
  · rfl
  · decide

theorem tdiv_of_nonneg {n : Int} (h : 0 ≤ n) :
    n.tdiv (10 ^ 9) * 10 ^ 9 ≤ n ∧ n < n.tdiv (10 ^ 9) * 10 ^ 9 + 10 ^ 9 := by
  rw [Int.tdiv_eq_ediv_of_nonneg h]
  omega

theorem tdiv_of_nonpos {n : Int} (h : n ≤ 0) :
    n ≤ n.tdiv (10 ^ 9) * 10 ^ 9 ∧ n.tdiv (10 ^ 9) ≤ 0 := by
  have hneg : n.tdiv (10 ^ 9) = -((-n) / 10 ^ 9) := by
    rw [← Int.tdiv_eq_ediv_of_nonneg (by omega), Int.neg_tdiv, Int.neg_neg]
  rw [hneg]
  omega

theorem le_tdiv {n : Int} (hlow : -2 ^ 63 ≤ n) : -2 ^ 63 ≤ n.tdiv (10 ^ 9) * 10 ^ 9 := by
  rcases Int.le_total 0 n with h | h
  · have hdiv := tdiv_of_nonneg h
    omega
  · have hdiv := tdiv_of_nonpos h
    omega

/-- The whole seconds of a time are a time of the clock. -/
theorem tdiv_bounds {n : Int} (hlow : -2 ^ 63 ≤ n) (hhigh : n < 2 ^ 63) :
    -2 ^ 63 ≤ n.tdiv (10 ^ 9) * 10 ^ 9 ∧ n.tdiv (10 ^ 9) * 10 ^ 9 < 2 ^ 63 := by
  refine ⟨le_tdiv hlow, ?_⟩
  rcases Int.le_total 0 n with h | h
  · have hdiv := tdiv_of_nonneg h
    omega
  · have hdiv := tdiv_of_nonpos h
    omega

/-- **When the wrapped sum decides as the exact one.** -/
theorem wrapped_lt_iff_iff {n : Int} (hlow : -2 ^ 63 ≤ n) (now : Int64) :
    (wrapped n < now.toInt ↔ n < now.toInt) ↔ n < 2 ^ 63 ∨ now.toInt ≤ wrapped n := by
  have hnow := toInt_bounds now
  by_cases hhigh : n < 2 ^ 63
  · rw [wrapped_eq_self hlow hhigh]
    exact iff_of_true Iff.rfl (Or.inl hhigh)
  · -- no reading is past a sum that has left 64 bits
    have hnot : ¬ n < now.toInt := by omega
    rw [iff_false_right hnot, or_iff_right hhigh, Int.not_lt]

end Clock
