import Mathlib.Algebra.BigOperators.Field
import Mathlib.Algebra.Order.BigOperators.Group.Finset
import Mathlib.Algebra.Order.Field.Rat
import Mathlib.Data.Fintype.BigOperators
import Mathlib.Data.Rat.Cast.Order
import Mathlib.Tactic.FieldSimp
import Mathlib.Tactic.Linarith
import Mathlib.Tactic.NormNum
import Mathlib.Tactic.Positivity
import Mathlib.Tactic.Ring

/-!
# The cap on a weight share

`detection/federated/weighting.py`: shares above a cap are cut down to it, and what they lose is
spread over the others, pass by pass, until none is above the cap.
-/
namespace WeightShareCap

open Finset

variable {n : ℕ}

/-- The slack that the comparison with the cap allows. -/
def TOLERANCE : ℚ := 1 / 10 ^ 12

/-- The shares so far, and the entries that have been cut down to the cap. -/
structure Filling (n : ℕ) where
  result : Fin n → ℚ
  capped : Finset (Fin n)

def overCap (cap : ℚ) (s : Filling n) : Finset (Fin n) :=
  univ.filter fun i => i ∉ s.capped ∧ cap + TOLERANCE < s.result i

/-- The weight that the capped entries leave is spread over the others in proportion to their own
weights. -/
def spread (weights : Fin n → ℚ) (s : Filling n) : Filling n :=
  let free := s.cappedᶜ
  let remaining := 1 - ∑ i ∈ s.capped, s.result i
  let freeRaw := ∑ i ∈ free, weights i
  { s with
    result := fun i =>
      if i ∈ free then
        if freeRaw ≤ 0 then remaining / free.card else weights i / freeRaw * remaining
      else s.result i }

def cut (cap : ℚ) (s : Filling n) : Filling n where
  result := fun i => if i ∈ overCap cap s then cap else s.result i
  capped := s.capped ∪ overCap cap s

def fill (weights : Fin n → ℚ) (cap : ℚ) : ℕ → Filling n → Fin n → ℚ
  | 0, s => s.result
  | passes + 1, s =>
    if overCap cap s = ∅ then s.result
    else if (cut cap s).cappedᶜ = ∅ then (cut cap s).result
    else fill weights cap passes (spread weights (cut cap s))

def applyWeightShareCap (rawWeights : Fin n → ℚ) (cap : ℚ) : Fin n → ℚ :=
  let total := ∑ i, rawWeights i
  if total ≤ 0 then rawWeights
  else
    let weights := fun i => rawWeights i / total
    if n ≤ 1 ∨ 1 ≤ cap then weights
    else fill weights (max cap (1 / n)) n ⟨weights, ∅⟩

section Passes

variable {weights : Fin n → ℚ} {cap : ℚ} {s : Filling n}

structure Shares (cap : ℚ) (s : Filling n) : Prop where
  nonneg : ∀ i, 0 ≤ s.result i
  sum : ∑ i, s.result i = 1
  capped : ∀ i ∈ s.capped, s.result i = cap

theorem mem_overCap {i : Fin n} :
    i ∈ overCap cap s ↔ i ∉ s.capped ∧ cap + TOLERANCE < s.result i := by
  simp [overCap]

theorem tolerance_pos : 0 < TOLERANCE := by
  norm_num [TOLERANCE]

theorem cap_le_of_mem_cut (h : Shares cap s) {i : Fin n} (hi : i ∈ (cut cap s).capped) :
    cap ≤ s.result i := by
  rcases mem_union.mp hi with hi | hi
  · exact (h.capped i hi).ge
  · have habove := (mem_overCap.mp hi).2
    linarith [tolerance_pos]

theorem cut_result_of_mem (h : Shares cap s) {i : Fin n} (hi : i ∈ (cut cap s).capped) :
    (cut cap s).result i = cap := by
  by_cases hover : i ∈ overCap cap s
  · exact if_pos hover
  · have hcapped : i ∈ s.capped := (mem_union.mp hi).resolve_right hover
    exact (if_neg hover).trans (h.capped i hcapped)

theorem sum_cut (h : Shares cap s) :
    ∑ i ∈ (cut cap s).capped, (cut cap s).result i = (cut cap s).capped.card * cap := by
  rw [sum_congr rfl fun i hi => cut_result_of_mem h hi, sum_const, nsmul_eq_mul]

theorem card_mul_cap_lt (h : Shares cap s) (hover : overCap cap s ≠ ∅) :
    (cut cap s).capped.card * cap < 1 := by
  obtain ⟨j, hj⟩ := nonempty_iff_ne_empty.mpr hover
  have hcut : j ∈ (cut cap s).capped := mem_union_right _ hj
  calc (cut cap s).capped.card * cap
      = ∑ i ∈ (cut cap s).capped, cap := by rw [sum_const, nsmul_eq_mul]
    _ < ∑ i ∈ (cut cap s).capped, s.result i := by
      apply sum_lt_sum
      · exact fun i hi => cap_le_of_mem_cut h hi
      · refine ⟨j, hcut, ?_⟩
        have habove := (mem_overCap.mp hj).2
        linarith [tolerance_pos]
    _ ≤ ∑ i, s.result i := by
      apply sum_le_sum_of_subset_of_nonneg (subset_univ _)
      exact fun i _ _ => h.nonneg i
    _ = 1 := h.sum

theorem free_nonempty (h : Shares cap s) (hover : overCap cap s ≠ ∅) (hcap : 1 ≤ n * cap) :
    (cut cap s).cappedᶜ ≠ ∅ := by
  intro hall
  have hlt := card_mul_cap_lt h hover
  rw [compl_eq_empty_iff _ |>.mp hall, card_univ, Fintype.card_fin] at hlt
  linarith

theorem card_lt_card_cut (hover : overCap cap s ≠ ∅) :
    s.capped.card < (cut cap s).capped.card := by
  obtain ⟨j, hj⟩ := nonempty_iff_ne_empty.mpr hover
  apply card_lt_card
  apply ssubset_iff_subset_ne.mpr
  refine ⟨subset_union_left, ?_⟩
  intro heq
  have hmem : j ∈ s.capped := heq ▸ mem_union_right _ hj
  exact (mem_overCap.mp hj).1 hmem

theorem sum_spread_free (hfree : s.cappedᶜ ≠ ∅) :
    ∑ i ∈ s.cappedᶜ, (spread weights s).result i = 1 - ∑ i ∈ s.capped, s.result i := by
  simp only [spread]
  rw [sum_congr rfl fun i hi => if_pos hi]
  by_cases hraw : ∑ i ∈ s.cappedᶜ, weights i ≤ 0
  · have hcard : (s.cappedᶜ.card : ℚ) ≠ 0 := by
      simpa using hfree
    simp only [if_pos hraw]
    rw [sum_const, nsmul_eq_mul, mul_div_cancel₀ _ hcard]
  · simp only [if_neg hraw]
    rw [← sum_mul, ← sum_div, div_self (ne_of_gt (not_le.mp hraw)), one_mul]

theorem spread_result_of_mem {i : Fin n} (hi : i ∈ s.capped) :
    (spread weights s).result i = s.result i :=
  if_neg (by simpa using hi)

theorem Shares.step (h : Shares cap s) (hcap : 0 ≤ cap) (hweights : ∀ i, 0 ≤ weights i)
    (hover : overCap cap s ≠ ∅) (hfree : (cut cap s).cappedᶜ ≠ ∅) :
    Shares cap (spread weights (cut cap s)) := by
  have hremaining : 0 ≤ 1 - ∑ i ∈ (cut cap s).capped, (cut cap s).result i := by
    rw [sum_cut h]
    linarith [card_mul_cap_lt h hover]
  constructor
  · intro i
    by_cases hi : i ∈ (cut cap s).capped
    · rw [spread_result_of_mem hi, cut_result_of_mem h hi]
      exact hcap
    · have hmem : i ∈ (cut cap s).cappedᶜ := mem_compl.mpr hi
      simp only [spread, if_pos hmem]
      split_ifs with hraw
      · exact div_nonneg hremaining (Nat.cast_nonneg _)
      · exact mul_nonneg (div_nonneg (hweights i) (not_le.mp hraw).le) hremaining
  · rw [← sum_add_sum_compl (cut cap s).capped, sum_spread_free hfree,
      sum_congr rfl fun i hi => spread_result_of_mem hi]
    ring
  · intro i hi
    have hi : i ∈ (cut cap s).capped := hi
    rw [spread_result_of_mem hi, cut_result_of_mem h hi]

/-- The passes suffice: each that changes the shares caps one more entry, and never all. -/
theorem fill_spec (hweights : ∀ i, 0 ≤ weights i) (hcap : 0 ≤ cap) (hroom : 1 ≤ n * cap)
    (passes : ℕ) (h : Shares cap s) (hproper : s.cappedᶜ ≠ ∅)
    (henough : n ≤ passes + s.capped.card) :
    (∀ i, 0 ≤ fill weights cap passes s i) ∧ ∑ i, fill weights cap passes s i = 1 ∧
      ∀ i, fill weights cap passes s i ≤ cap + TOLERANCE := by
  induction passes generalizing s with
  | zero =>
    have hlt := card_lt_univ_of_notMem (s := s.capped)
      (mem_compl.mp (nonempty_iff_ne_empty.mpr hproper).choose_spec)
    rw [Fintype.card_fin] at hlt
    omega
  | succ passes ih =>
    rw [fill]
    by_cases hover : overCap cap s = ∅
    · rw [if_pos hover]
      refine ⟨h.nonneg, h.sum, ?_⟩
      intro i
      by_cases hi : i ∈ s.capped
      · rw [h.capped i hi]
        linarith [tolerance_pos]
      · by_contra habove
        have hmem : i ∈ overCap cap s := mem_overCap.mpr ⟨hi, not_le.mp habove⟩
        rw [hover] at hmem
        exact absurd hmem (notMem_empty i)
    · have hfree := free_nonempty h hover hroom
      rw [if_neg hover, if_neg hfree]
      apply ih (h.step hcap hweights hover hfree) hfree
      have hgrows := card_lt_card_cut hover
      change n ≤ passes + (cut cap s).capped.card
      omega

end Passes

/-- Weights of non-negative counts, not all zero, are a convex combination in which no share
exceeds the cap by more than the slack. -/
theorem applyWeightShareCap_spec {raw : Fin n → ℚ} (cap : ℚ) (hraw : ∀ i, 0 ≤ raw i)
    (htotal : ∑ i, raw i ≠ 0) : (∀ i, 0 ≤ applyWeightShareCap raw cap i) ∧
    ∑ i, applyWeightShareCap raw cap i = 1 ∧
    ∀ i, applyWeightShareCap raw cap i ≤ max cap (1 / n) + TOLERANCE := by
  have hpos : 0 < ∑ i, raw i := lt_of_le_of_ne (sum_nonneg fun i _ => hraw i) htotal.symm
  have hweights (i : Fin n) : 0 ≤ raw i / ∑ i, raw i := div_nonneg (hraw i) hpos.le
  have hsum : ∑ i, raw i / ∑ i, raw i = 1 := by rw [← sum_div, div_self htotal]
  have hshares : Shares (max cap (1 / n)) ⟨fun i => raw i / ∑ i, raw i, ∅⟩ :=
    ⟨hweights, hsum, by simp⟩
  simp only [applyWeightShareCap, if_neg (not_le.mpr hpos)]
  by_cases hplain : n ≤ 1 ∨ 1 ≤ cap
  · simp only [if_pos hplain]
    refine ⟨hweights, hsum, ?_⟩
    intro i
    have hone : raw i / ∑ i, raw i ≤ 1 := by
      rw [← hsum]
      exact single_le_sum (fun i _ => hweights i) (mem_univ i)
    have hle : 1 ≤ max cap (1 / (n : ℚ)) := by
      rcases hplain with hn | hcap
      · have hn : n = 1 := by have := i.isLt; omega
        subst hn
        exact le_max_of_le_right (by norm_num)
      · exact le_max_of_le_left hcap
    linarith [tolerance_pos]
  · simp only [if_neg hplain]
    obtain ⟨hn, -⟩ := not_or.mp hplain
    have hnpos : (0 : ℚ) < n := by exact_mod_cast (by omega : 0 < n)
    have hle : 1 / (n : ℚ) ≤ max cap (1 / n) := le_max_right _ _
    apply fill_spec hweights (le_trans (by positivity) hle) _ n hshares
    · have hzero : (⟨0, by omega⟩ : Fin n) ∈ (∅ : Finset (Fin n))ᶜ := by simp
      exact ne_empty_of_mem hzero
    · simp
    · rw [← div_le_iff₀' hnpos]
      exact hle

end WeightShareCap
