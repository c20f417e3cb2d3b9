import LedgerLens.FederatedServer
import Mathlib.Analysis.Convex.Combination

/-!
# The weights of a federated round

The weights that a round applies to its updates, from the sample counts that the submissions
claim and the ceilings cut down.
-/
namespace FederatedWeights

open FederatedServer Krum WeightShareCap

variable {d : ℕ} {Key Sig : Type} {c : Config} {lib : Libraries d Key Sig} {s : Server d Key}

theorem sum_rawWeights (updates : List (Update d)) :
    ∑ i, rawWeights updates i = (updates.map Update.nSamples).sum := by
  simp only [rawWeights]
  rw [← Int.cast_sum, ← List.sum_ofFn]
  congr 2
  exact List.ofFn_getElem_eq_map updates Update.nSamples

theorem roundUpdates_eq_some {updates : List (Update d)}
    (h : roundUpdates c lib s = .ok (some updates)) :
    survivors c lib s = .ok updates ∧ (updates.map Update.nSamples).sum ≠ 0 := by
  cases hsurvivors : survivors c lib s with
  | error e => simp [roundUpdates, hsurvivors] at h
  | ok kept =>
    simp only [roundUpdates, hsurvivors] at h
    by_cases hnone : kept = [] ∨ (kept.map Update.nSamples).sum = 0
    · simp [if_pos hnone] at h
    · rw [if_neg hnone] at h
      obtain rfl := Option.some.inj (Except.ok.inj h)
      exact ⟨rfl, (not_or.mp hnone).2⟩

/-- Where the accepted counts are not negative, the weights of a round make its update a convex
combination in which no share exceeds the cap by more than the slack of the comparison. -/
theorem weights_convex {updates : List (Update d)}
    (hround : roundUpdates c lib s = .ok (some updates))
    (hcounts : ∀ u ∈ s.pendingUpdates, u.valid = true → 0 ≤ u.nSamples) :
    (∀ i, 0 ≤ weightsOf c updates i) ∧ ∑ i, weightsOf c updates i = 1 ∧
    (∀ i, weightsOf c updates i ≤
      max c.maxParticipantWeightFraction (1 / updates.length) + TOLERANCE) ∧
    fedavg c updates ∈
      convexHull ℚ (Set.range fun i => (updates.get i).noisySoftLabels) := by
  obtain ⟨hsurvivors, htotal⟩ := roundUpdates_eq_some hround
  have hraw (i : Fin updates.length) : 0 ≤ rawWeights updates i := by
    obtain ⟨hpending, hvalid⟩ := mem_survivors hsurvivors (List.get_mem updates i)
    exact Int.cast_nonneg (hcounts _ hpending hvalid)
  have hsum : ∑ i, rawWeights updates i ≠ 0 := by
    rw [sum_rawWeights]
    exact Int.cast_ne_zero.mpr htotal
  obtain ⟨hnonneg, hone, hcap⟩ :=
    applyWeightShareCap_spec c.maxParticipantWeightFraction hraw hsum
  refine ⟨hnonneg, hone, hcap, ?_⟩
  apply mem_convexHull_of_exists_fintype (weightsOf c updates) _ hnonneg hone
  · exact fun i => Set.mem_range_self i
  · funext k
    simp [fedavg]

section Examples

def halfCap : Config := { Config.default with admissionRequired := false }

def oneRow : Libraries 1 Unit Unit := .oneRow fun _ _ _ => true

def twoCounts (m n : ℤ) : List (Call 1 Unit Unit Unit) :=
  [.register () "p" (some ()), .register () "q" (some ()),
    .submit ⟨"p", fun _ => 1 / 2, m, ()⟩ ⟨fun _ => 0, "r1", true⟩,
    .submit ⟨"q", fun _ => 1 / 2, n, ()⟩ ⟨fun _ => 0, "r1", true⟩]

def afterCounts (m n : ℤ) : Server 1 Unit :=
  (twoCounts m n).foldl (next halfCap oneRow) (.init halfCap oneRow (fun _ => none) "r0" 0 0)

def counted (participantId : String) (nSamples : ℤ) : Update 1 :=
  ⟨participantId, fun _ => 1 / 2, fun _ => 0, nSamples, nSamples, none⟩

theorem weights_convex_three_to_one :
    (∀ i, 0 ≤ weightsOf halfCap [counted "p" 3, counted "q" 1] i) ∧
    ∑ i, weightsOf halfCap [counted "p" 3, counted "q" 1] i = 1 ∧
    (∀ i, weightsOf halfCap [counted "p" 3, counted "q" 1] i ≤ max (1 / 2) (1 / 2) + TOLERANCE) ∧
    fedavg halfCap [counted "p" 3, counted "q" 1] ∈ convexHull ℚ
      (Set.range fun i => ([counted "p" 3, counted "q" 1].get i).noisySoftLabels) :=
  @weights_convex _ _ _ halfCap oneRow (afterCounts 3 1) _ (by decide +kernel) (by decide +kernel)

/-- A share of the slack above the cap is left as it is. -/
theorem weight_above_cap : ¬ ∀ (d : ℕ) (Key Sig Party : Type) (c : Config)
    (lib : Libraries d Key Sig) (calls : List (Call d Key Sig Party)) (updates : List (Update d)),
    roundUpdates c lib (calls.foldl (next c lib) (.init c lib (fun _ => none) "r0" 0 0)) =
      .ok (some updates) →
    (∀ i, 0 ≤ weightsOf c updates i) ∧ ∑ i, weightsOf c updates i = 1 ∧
      ∀ i, weightsOf c updates i ≤ max c.maxParticipantWeightFraction (1 / updates.length) := by
  intro h
  have hround : roundUpdates halfCap oneRow (afterCounts (10 ^ 12 + 1) (10 ^ 12)) =
      .ok (some [counted "p" (10 ^ 12 + 1), counted "q" (10 ^ 12)]) := by
    decide +kernel
  obtain ⟨-, -, hcap⟩ := h 1 Unit Unit Unit halfCap oneRow _ _ hround
  have hfirst := hcap ⟨0, by decide⟩
  revert hfirst
  decide +kernel

end Examples

end FederatedWeights
