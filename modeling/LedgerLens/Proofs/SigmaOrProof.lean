import Mathlib.Algebra.Module.BigOperators
import Mathlib.Algebra.Order.BigOperators.Group.Finset
import Mathlib.Tactic.FieldSimp
import Mathlib.Tactic.Abel
import Mathlib.Tactic.Module

/-!
# The disjunctive bit proof

A Sigma protocol over any vector space: a commitment opens to zero or to one in the
direction of the second generator. Two accepted challenges determine an opening, and
openings of the bits add up to an opening of their weighted sum.
-/
namespace SigmaOrProof

variable {K V : Type*} [Field K] [AddCommGroup V] [Module K V]

/-- First message recomputed from a challenge and a response for `X = r • H`. -/
def announcement (H X : V) (c s : K) : V := s • H - c • X

/-- `B` is a bit times `G` plus a multiple of `H`. -/
def OpensToBit (G H B : V) (b : ℕ) (r : K) : Prop := b ≤ 1 ∧ B = b • G + r • H

theorem announcement_honest (H : V) (t c r : K) :
    announcement H (r • H) c (t + c * r) = t • H := by
  rw [announcement, add_smul, mul_smul, add_sub_cancel_right]

theorem announcement_extract {H X : V} {c c' s s' : K} (hc : c ≠ c')
    (h : announcement H X c s = announcement H X c' s') :
    X = ((s - s') / (c - c')) • H := by
  have hne : c - c' ≠ 0 := sub_ne_zero.mpr hc
  have hlin : (c - c') • X = (s - s') • H := by
    unfold announcement at h
    calc (c - c') • X = s • H - c' • X - (s • H - c • X) := by module
      _ = s • H - c' • X - (s' • H - c' • X) := by rw [h]
      _ = (s - s') • H := by module
  rw [div_eq_inv_mul, mul_smul, ← hlin, inv_smul_smul₀ hne]

section Extract

variable [DecidableEq K]

def extractBit (c₀ d₀ : K) : ℕ := if c₀ = d₀ then 1 else 0

def extractBlinding (c₀ c₁ s₀ s₁ d₀ d₁ t₀ t₁ : K) : K :=
  if c₀ = d₀ then (s₁ - t₁) / (c₁ - d₁) else (s₀ - t₀) / (c₀ - d₀)

/-- The challenges add up, so a changed sum changes one of the branches. -/
theorem bit_extract {G H B : V} {c₀ c₁ s₀ s₁ d₀ d₁ t₀ t₁ : K} (hc : c₀ + c₁ ≠ d₀ + d₁)
    (h₀ : announcement H B c₀ s₀ = announcement H B d₀ t₀)
    (h₁ : announcement H (B - G) c₁ s₁ = announcement H (B - G) d₁ t₁) :
    OpensToBit G H B (extractBit c₀ d₀) (extractBlinding c₀ c₁ s₀ s₁ d₀ d₁ t₀ t₁) := by
  unfold extractBit extractBlinding
  by_cases hz : c₀ = d₀
  · have ho : c₁ ≠ d₁ := fun he => hc (by rw [hz, he])
    rw [if_pos hz, if_pos hz]
    refine ⟨le_rfl, ?_⟩
    rw [one_nsmul, ← announcement_extract ho h₁]
    abel
  · rw [if_neg hz, if_neg hz]
    refine ⟨Nat.zero_le 1, ?_⟩
    rw [zero_nsmul, zero_add]
    exact announcement_extract hz h₀

end Extract

theorem weighted_opening {ι : Type*} {G H : V} (s : Finset ι) (w b : ι → ℕ) {r : ι → K}
    {B : ι → V} (h : ∀ i ∈ s, OpensToBit G H (B i) (b i) (r i)) :
    ∑ i ∈ s, w i • B i = (∑ i ∈ s, w i * b i) • G + (∑ i ∈ s, (w i : K) * r i) • H := by
  have hterm : ∀ i ∈ s, w i • B i = (w i * b i) • G + ((w i : K) * r i) • H := by
    intro i hi
    rw [(h i hi).2, smul_add, mul_smul, mul_smul, Nat.cast_smul_eq_nsmul]
  rw [Finset.sum_congr rfl hterm, Finset.sum_add_distrib, ← Finset.sum_smul, ← Finset.sum_smul]

end SigmaOrProof
