import Mathlib.Algebra.BigOperators.Group.List.Basic
import Mathlib.Algebra.Field.Basic
import Mathlib.Tactic.FieldSimp
import Mathlib.Tactic.Ring

/-!
# Sums of squared deviations

The sum of the squared deviations from the mean, over any field of characteristic zero, and what
it is for two lists together.
-/
namespace SquaredDeviations

variable {K : Type*} [Field K]

def mean (l : List K) : K := l.sum / l.length

def deviations (l : List K) : K := (l.map fun x => (x - mean l) ^ 2).sum

@[simp] theorem mean_nil : mean ([] : List K) = 0 := by simp [mean]

@[simp] theorem deviations_nil : deviations ([] : List K) = 0 := rfl

@[simp] theorem deviations_singleton (x : K) : deviations [x] = 0 := by
  simp [deviations, mean]

theorem sum_sq_sub (l : List K) (c : K) : (l.map fun x => (x - c) ^ 2).sum =
    (l.map fun x => x ^ 2).sum - 2 * c * l.sum + l.length * c ^ 2 := by
  induction l with
  | nil => simp
  | cons x l ih =>
    simp only [List.map_cons, List.sum_cons, List.length_cons, ih]
    push_cast
    ring

variable [CharZero K]

theorem length_ne_zero {l : List K} (h : l ≠ []) : (l.length : K) ≠ 0 :=
  Nat.cast_ne_zero.mpr (List.length_pos_iff.mpr h).ne'

theorem deviations_eq {l : List K} (h : l ≠ []) :
    deviations l = (l.map fun x => x ^ 2).sum - l.sum ^ 2 / l.length := by
  have hlength := length_ne_zero h
  rw [deviations, sum_sq_sub, mean]
  field_simp
  ring

theorem deviations_append (a b : List K) : deviations (a ++ b) =
    deviations a + deviations b +
      (mean a - mean b) ^ 2 * a.length * b.length / (a.length + b.length) := by
  rcases eq_or_ne a [] with rfl | ha
  · simp
  rcases eq_or_ne b [] with rfl | hb
  · simp
  have hlength := length_ne_zero ha
  have hlength' := length_ne_zero hb
  have htotal : (a.length : K) + b.length ≠ 0 := by
    have h := length_ne_zero (List.append_ne_nil_of_left_ne_nil ha b)
    rwa [List.length_append, Nat.cast_add] at h
  rw [deviations_eq (List.append_ne_nil_of_left_ne_nil ha b), deviations_eq ha, deviations_eq hb,
    mean, mean, List.map_append, List.sum_append, List.sum_append, List.length_append, Nat.cast_add]
  field_simp
  ring

end SquaredDeviations
