import Mathlib.Algebra.Order.Field.Basic
import Mathlib.Data.List.Basic
import Mathlib.Tactic.Linarith
import Mathlib.Tactic.Ring

/-!
# Grants that are metered by a level

A level of at most the capacity rises with time, at most at a rate, and every grant lowers it by
one. Over all windows of time the grants are then at most the capacity and what the rate yields.
-/
namespace MeteredGrants

section Counting

variable {K : Type*} [LinearOrder K] {now a b : K} {grants : List K}

def within (grants : List K) (a b : K) : ℕ :=
  (grants.filter fun g => decide (a ≤ g ∧ g ≤ b)).length

def since (grants : List K) (a : K) : ℕ := (grants.filter fun g => decide (a ≤ g)).length

theorem since_eq_zero (h : ∀ g ∈ grants, g ≤ now) (ha : now < a) : since grants a = 0 := by
  rw [since, List.length_eq_zero_iff, List.filter_eq_nil_iff]
  intro g hg hle
  exact absurd (of_decide_eq_true hle) (not_le.mpr ((h g hg).trans_lt ha))

theorem within_le_since : within grants a b ≤ since grants a := by
  apply List.Sublist.length_le
  apply List.monotone_filter_right grants
  intro g hg
  exact decide_eq_true (of_decide_eq_true hg).1

theorem since_concat : since (grants ++ [now]) a = since grants a + if a ≤ now then 1 else 0 := by
  rw [since, List.filter_append, List.length_append, List.filter_cons, List.filter_nil, since]
  split_ifs <;> simp_all

theorem within_concat : within (grants ++ [now]) a b =
    within grants a b + if a ≤ now ∧ now ≤ b then 1 else 0 := by
  rw [within, List.filter_append, List.length_append, List.filter_cons, List.filter_nil, within]
  split_ifs <;> simp_all

end Counting

variable {K : Type*} [Field K] [LinearOrder K] [IsStrictOrderedRing K]

structure Metered (capacity rate level now : K) (grants : List K) : Prop where
  past : ∀ g ∈ grants, g ≤ now
  full : level ≤ capacity
  since : ∀ a ≤ now, level + since grants a ≤ capacity + rate * (now - a)
  within : ∀ a b, a ≤ b → (within grants a b : K) ≤ capacity + rate * (b - a)

variable {capacity rate level level' now now' : K} {grants : List K}

theorem Metered.start (hfull : level ≤ capacity) (hzero : 0 ≤ capacity) (hrate : 0 ≤ rate) :
    Metered capacity rate level now [] where
  past := by simp
  full := hfull
  since a ha := by
    have := mul_nonneg hrate (sub_nonneg.mpr ha)
    simp only [MeteredGrants.since, List.filter_nil, List.length_nil, Nat.cast_zero, add_zero]
    linarith
  within a b hab := by
    have := mul_nonneg hrate (sub_nonneg.mpr hab)
    simp only [MeteredGrants.within, List.filter_nil, List.length_nil, Nat.cast_zero]
    linarith

theorem Metered.refill (h : Metered capacity rate level now grants) (htime : now ≤ now')
    (hrate : 0 ≤ rate) (hfull : level' ≤ capacity)
    (hrise : level' ≤ level + rate * (now' - now)) :
    Metered capacity rate level' now' grants where
  past g hg := (h.past g hg).trans htime
  full := hfull
  since a ha := by
    rcases lt_or_ge now a with hlt | hle
    · have := mul_nonneg hrate (sub_nonneg.mpr ha)
      rw [since_eq_zero h.past hlt, Nat.cast_zero, add_zero]
      linarith
    · have hbefore := h.since a hle
      calc level' + (MeteredGrants.since grants a : K)
          ≤ level + rate * (now' - now) + (MeteredGrants.since grants a : K) := by linarith
        _ ≤ capacity + rate * (now - a) + rate * (now' - now) := by linarith
        _ = capacity + rate * (now' - a) := by ring
  within := h.within

theorem Metered.grant (h : Metered capacity rate level now grants) (hrate : 0 ≤ rate)
    (hcost : level' + 1 ≤ level) (hzero : 0 ≤ level') :
    Metered capacity rate level' now (grants ++ [now]) where
  past g hg := by
    rcases List.mem_append.mp hg with hg | hg
    · exact h.past g hg
    · exact (List.mem_singleton.mp hg).le
  full := by linarith [h.full]
  since a ha := by
    have hbefore := h.since a ha
    rw [since_concat, if_pos ha]
    push_cast
    linarith
  within a b hab := by
    rw [within_concat]
    split_ifs with hin
    · -- The new grant is the last one, so the window has what there is since it opened.
      have hbefore := h.since a hin.1
      have hcount : (MeteredGrants.within grants a b : K) ≤ MeteredGrants.since grants a := by
        exact_mod_cast within_le_since
      have hlater := mul_le_mul_of_nonneg_left (sub_le_sub_right hin.2 a) hrate
      push_cast
      linarith
    · rw [add_zero]
      exact h.within a b hab

end MeteredGrants
