import Mathlib.Algebra.Order.Field.Basic
import Mathlib.Tactic.Linarith
import Mathlib.Tactic.Positivity
import Mathlib.Tactic.Ring

/-!
# Thresholds that are moved by their misses

A threshold rises by a step on every miss, falls by a share of it on every hit and never goes below
zero. Where no miss happens from some bound on, the threshold stays near the bound, and what it has
risen by in all limits the number of misses, whoever chooses the outcomes.
-/
namespace ClampedFeedback

variable {K : Type*} [Field K] [LinearOrder K] [IsStrictOrderedRing K]

def adjust (gamma alpha q : K) (missed : Bool) : K :=
  max 0 (q + gamma * ((if missed then 1 else 0) - alpha))

/-- What is known of the threshold after a number of outcomes, some of them missed. -/
structure Tracked (gamma alpha bound q₀ q : K) (misses total : ℕ) : Prop where
  nonneg : 0 ≤ q
  upper : q ≤ max bound q₀ + gamma
  telescoped : q₀ + gamma * (misses - alpha * total) ≤ q

variable {gamma alpha bound q₀ q : K} {misses total : ℕ}

theorem Tracked.start (hstart : 0 ≤ q₀) (hgamma : 0 ≤ gamma) :
    Tracked gamma alpha bound q₀ q₀ 0 0 where
  nonneg := hstart
  upper := (le_max_right bound q₀).trans (le_add_of_nonneg_right hgamma)
  telescoped := by simp

/-- Only a miss raises the threshold, and from the bound on there is none. -/
theorem Tracked.next (h : Tracked gamma alpha bound q₀ q misses total) (hstart : 0 ≤ q₀)
    (hgamma : 0 < gamma) (hpos : 0 < alpha) {missed : Bool}
    (hmissed : missed = true → q < bound) :
    Tracked gamma alpha bound q₀ (adjust gamma alpha q missed)
      (misses + if missed then 1 else 0) (total + 1) where
  nonneg := le_max_left _ _
  upper := by
    have hbound := le_max_left bound q₀
    have hzero := hstart.trans (le_max_right bound q₀)
    have hfall : 0 < gamma * alpha := mul_pos hgamma hpos
    have hupper := h.upper
    apply max_le (by linarith)
    cases missed with
    | false =>
      rw [if_neg Bool.false_ne_true, zero_sub, mul_neg]
      linarith
    | true =>
      have hlt := hmissed rfl
      rw [if_pos rfl, mul_sub, mul_one]
      linarith
  telescoped := by
    have hmoved : q + gamma * ((if missed then 1 else 0) - alpha) ≤ adjust gamma alpha q missed :=
      le_max_right _ _
    have hstep : q₀ + gamma * ((misses + if missed then 1 else 0 : ℕ) - alpha * (total + 1 : ℕ)) =
        q₀ + gamma * (misses - alpha * total) + gamma * ((if missed then 1 else 0) - alpha) := by
      push_cast
      ring
    have htelescoped := h.telescoped
    rw [hstep]
    linarith

theorem Tracked.misses_le (h : Tracked gamma alpha bound q₀ q misses total)
    (hgamma : 0 < gamma) :
    (misses : K) ≤ alpha * total + (max bound q₀ + gamma - q₀) / gamma := by
  have hrise : (misses : K) - alpha * total ≤ (max bound q₀ + gamma - q₀) / gamma := by
    rw [le_div_iff₀ hgamma, mul_comm]
    linarith [h.upper, h.telescoped]
  linarith

end ClampedFeedback
