import LedgerLens.WeightShareCap
import Mathlib.Data.Fin.VecNotation

/-!
# Order and proportion under the cap

What the passes of `detection/federated/weighting.py` keep besides the sum: the capped entries are
those of the greatest weights, and the others share what is left in proportion to their weights.
The comparison with the cap allows a slack, which is all that the bound and the order lose.
-/
namespace WeightShareCap

open Finset

variable {n : ℕ}

/-- The entries that are not capped have shares in one proportion, or no weight at all. -/
def InProportion (weights share : Fin n → ℚ) (capped : Finset (Fin n)) : Prop :=
  (∃ ratio, 0 ≤ ratio ∧ ∀ i ∉ capped, share i = ratio * weights i) ∨
    (∀ i ∉ capped, weights i = 0) ∧ ∀ i ∉ capped, ∀ j ∉ capped, share i = share j

/-- With an entry every heavier one is capped. -/
structure Fair (weights : Fin n → ℚ) (s : Filling n) : Prop where
  upward : ∀ i ∈ s.capped, ∀ j, weights i ≤ weights j → j ∈ s.capped
  proportion : InProportion weights s.result s.capped

section Passes

variable {weights : Fin n → ℚ} {cap : ℚ} {s : Filling n}

theorem InProportion.monotone {share : Fin n → ℚ} {capped : Finset (Fin n)}
    (h : InProportion weights share capped) {i j : Fin n} (hi : i ∉ capped) (hj : j ∉ capped)
    (hij : weights i ≤ weights j) : share i ≤ share j := by
  rcases h with ⟨ratio, hratio, hshare⟩ | ⟨-, hequal⟩
  · rw [hshare i hi, hshare j hj]
    exact mul_le_mul_of_nonneg_left hij hratio
  · exact (hequal i hi j hj).le

/-- An entry that is cut takes every heavier one along, since its share is no smaller. -/
theorem cut_upward (h : Fair weights s) : ∀ i ∈ (cut cap s).capped, ∀ j,
    weights i ≤ weights j → j ∈ (cut cap s).capped := by
  intro i hi j hij
  by_cases hj : j ∈ s.capped
  · exact mem_union_left _ hj
  · have hi' : i ∉ s.capped := fun hcapped => hj (h.upward i hcapped j hij)
    have hover : i ∈ overCap cap s := (mem_union.mp hi).resolve_left hi'
    have habove := (mem_overCap.mp hover).2
    exact mem_union_right _
      (mem_overCap.mpr ⟨hj, habove.trans_le (h.proportion.monotone hi' hj hij)⟩)

theorem spread_proportion (hweights : ∀ i, 0 ≤ weights i)
    (hremaining : 0 ≤ 1 - ∑ i ∈ s.capped, s.result i) :
    InProportion weights (spread weights s).result s.capped := by
  by_cases hraw : ∑ i ∈ s.cappedᶜ, weights i ≤ 0
  · right
    have hzero : ∑ i ∈ s.cappedᶜ, weights i = 0 :=
      le_antisymm hraw (sum_nonneg fun i _ => hweights i)
    constructor
    · intro i hi
      exact (sum_eq_zero_iff_of_nonneg fun i _ => hweights i).mp hzero i (mem_compl.mpr hi)
    · intro i hi j hj
      simp only [spread, if_pos (mem_compl.mpr hi), if_pos (mem_compl.mpr hj), if_pos hraw]
  · left
    have hpos := not_le.mp hraw
    refine ⟨(1 - ∑ i ∈ s.capped, s.result i) / ∑ i ∈ s.cappedᶜ, weights i,
      div_nonneg hremaining hpos.le, ?_⟩
    intro i hi
    simp only [spread, if_pos (mem_compl.mpr hi), if_neg hraw]
    ring

theorem Fair.step (hfair : Fair weights s) (h : Shares cap s) (hweights : ∀ i, 0 ≤ weights i)
    (hover : overCap cap s ≠ ∅) : Fair weights (spread weights (cut cap s)) := by
  refine ⟨cut_upward hfair, spread_proportion hweights ?_⟩
  rw [sum_cut h]
  linarith [card_mul_cap_lt h hover]

/-- The shares that the loop returns, with the entries it has capped. -/
theorem fill_fair (hweights : ∀ i, 0 ≤ weights i) (hcap : 0 ≤ cap) (hroom : 1 ≤ n * cap)
    (passes : ℕ) (h : Shares cap s) (hfair : Fair weights s) (hproper : s.cappedᶜ ≠ ∅)
    (henough : n ≤ passes + s.capped.card) : ∃ final : Filling n,
      fill weights cap passes s = final.result ∧ overCap cap final = ∅ ∧
      Shares cap final ∧ Fair weights final ∧
      ∀ more, passes ≤ more → fill weights cap more s = final.result := by
  induction passes generalizing s with
  | zero =>
    have hlt := card_lt_univ_of_notMem (s := s.capped)
      (mem_compl.mp (nonempty_iff_ne_empty.mpr hproper).choose_spec)
    rw [Fintype.card_fin] at hlt
    omega
  | succ passes ih =>
    by_cases hover : overCap cap s = ∅
    · have hstop (k : ℕ) : fill weights cap (k + 1) s = s.result := by
        rw [fill, if_pos hover]
      refine ⟨s, hstop passes, hover, h, hfair, ?_⟩
      intro more hmore
      obtain ⟨k, rfl⟩ := Nat.exists_eq_add_of_le' (Nat.one_le_of_lt hmore)
      exact hstop k
    · have hfree := free_nonempty h hover hroom
      have hgrows := card_lt_card_cut hover
      have hgo (k : ℕ) : fill weights cap (k + 1) s =
          fill weights cap k (spread weights (cut cap s)) := by
        rw [fill, if_neg hover, if_neg hfree]
      obtain ⟨final, heq, hdone, hshares, hfair', hmore⟩ :=
        ih (h.step hcap hweights hover hfree) (hfair.step h hweights hover) hfree (by
          change n ≤ passes + (cut cap s).capped.card
          omega)
      refine ⟨final, (hgo passes).trans heq, hdone, hshares, hfair', ?_⟩
      intro more hle
      obtain ⟨k, rfl⟩ := Nat.exists_eq_add_of_le' (Nat.one_le_of_lt hle)
      rw [hgo]
      exact hmore k (by omega)

theorem InProportion.of_normalized {raw share : Fin n → ℚ} {total : ℚ} {capped : Finset (Fin n)}
    (htotal : 0 < total) (h : InProportion (fun i => raw i / total) share capped) :
    InProportion raw share capped := by
  rcases h with ⟨ratio, hratio, hshare⟩ | ⟨hzero, hequal⟩
  · refine .inl ⟨ratio / total, div_nonneg hratio htotal.le, ?_⟩
    intro i hi
    rw [hshare i hi]
    ring
  · refine .inr ⟨?_, hequal⟩
    intro i hi
    exact (div_eq_zero_iff.mp (hzero i hi)).resolve_right htotal.ne'

end Passes

/-- Shares under a cap, with the entries that got exactly the cap. -/
structure WaterFilled (raw share : Fin n → ℚ) (cap : ℚ) (capped : Finset (Fin n)) : Prop where
  sum : ∑ i, share i = 1
  bound : ∀ i, share i ≤ cap + TOLERANCE
  at_cap : ∀ i ∈ capped, share i = cap
  order : ∀ i j, raw i ≤ raw j →
    share i ≤ share j ∨ j ∈ capped ∧ share i ≤ share j + TOLERANCE
  proportion : InProportion raw share capped

/-- More passes than entries change nothing, and what is returned is filled up to the cap, the
order being kept but for the slack below a capped entry. -/
theorem applyWeightShareCap_waterFilled {raw : Fin n → ℚ} (cap : ℚ) (hraw : ∀ i, 0 ≤ raw i)
    (htotal : 0 < ∑ i, raw i) :
    (¬ (n ≤ 1 ∨ 1 ≤ cap) → ∀ passes, n ≤ passes →
      fill (fun i => raw i / ∑ j, raw j) (max cap (1 / n)) passes
        ⟨fun i => raw i / ∑ j, raw j, ∅⟩ = applyWeightShareCap raw cap) ∧
      ∃ capped, WaterFilled raw (applyWeightShareCap raw cap) (max cap (1 / n)) capped := by
  obtain ⟨hnonneg, hsum, hbound⟩ := applyWeightShareCap_spec cap hraw htotal.ne'
  have hweights (i : Fin n) : 0 ≤ raw i / ∑ i, raw i := div_nonneg (hraw i) htotal.le
  have hone : ∑ i, raw i / ∑ i, raw i = 1 := by rw [← sum_div, div_self htotal.ne']
  have hshares : Shares (max cap (1 / n)) ⟨fun i => raw i / ∑ i, raw i, ∅⟩ :=
    ⟨hweights, hone, by simp⟩
  have hplainShare : InProportion (fun i => raw i / ∑ j, raw j) (fun i => raw i / ∑ j, raw j) ∅ :=
    .inl ⟨1, by norm_num, fun i _ => (one_mul _).symm⟩
  by_cases hplain : n ≤ 1 ∨ 1 ≤ cap
  · have hresult : applyWeightShareCap raw cap = fun i => raw i / ∑ j, raw j := by
      simp only [applyWeightShareCap, if_neg (not_le.mpr htotal), if_pos hplain]
    refine ⟨fun h => absurd hplain h, ∅, hsum, hbound, by simp, ?_, ?_⟩
    · intro i j hij
      rw [hresult]
      exact .inl (div_le_div_of_nonneg_right hij htotal.le)
    · rw [hresult]
      exact hplainShare.of_normalized htotal
  · obtain ⟨hn, -⟩ := not_or.mp hplain
    have hnpos : (0 : ℚ) < n := by exact_mod_cast (by omega : 0 < n)
    have hle : 1 / (n : ℚ) ≤ max cap (1 / n) := le_max_right _ _
    have hproper : (∅ : Finset (Fin n))ᶜ ≠ ∅ := ne_empty_of_mem (a := ⟨0, by omega⟩) (by simp)
    obtain ⟨final, heq, hdone, hfinal, hfair, hmore⟩ := fill_fair hweights
      (le_trans (by positivity) hle) ((div_le_iff₀' hnpos).mp hle) n hshares
      ⟨by simp, hplainShare⟩ hproper (by simp)
    have hresult : applyWeightShareCap raw cap = final.result := by
      simp only [applyWeightShareCap, if_neg (not_le.mpr htotal), if_neg hplain]
      exact heq
    rw [hresult] at hsum hbound ⊢
    refine ⟨fun _ passes hpasses => hmore passes hpasses, final.capped, hsum, hbound,
      hfinal.capped, ?_, hfair.proportion.of_normalized htotal⟩
    intro i j hij
    have hij' : raw i / ∑ j, raw j ≤ raw j / ∑ j, raw j :=
      div_le_div_of_nonneg_right hij htotal.le
    by_cases hj : j ∈ final.capped
    · refine .inr ⟨hj, ?_⟩
      rw [hfinal.capped j hj]
      exact hbound i
    · have hi : i ∉ final.capped := fun hi => hj (hfair.upward i hi j hij')
      exact .inl (hfair.proportion.monotone hi hj hij')

theorem capped_waterFilled : ∃ capped,
    WaterFilled ![5, 3, 1, 1] (applyWeightShareCap ![5, 3, 1, 1] (2 / 5)) (max (2 / 5) (1 / 4))
      capped := by
  have hraw : ∀ i, (0 : ℚ) ≤ ![5, 3, 1, 1] i := by decide +kernel
  obtain ⟨-, hfilled⟩ := applyWeightShareCap_waterFilled (2 / 5) hraw (by decide +kernel)
  exact_mod_cast hfilled

/-- A share that exceeds the cap by less than the slack is left there, also next to a heavier entry
that has been cut down to the cap. -/
theorem share_above_cap :
    max (1 / 2) (1 / (2 : ℚ)) < applyWeightShareCap ![10 ^ 12 + 1, 10 ^ 12] (1 / 2) 0 ∧
      applyWeightShareCap ![4 * 10 ^ 12 + 15, 4 * 10 ^ 12 - 5, 2 * 10 ^ 12 - 10] (2 / 5) 0 <
        applyWeightShareCap ![4 * 10 ^ 12 + 15, 4 * 10 ^ 12 - 5, 2 * 10 ^ 12 - 10] (2 / 5) 1 := by
  decide +kernel

end WeightShareCap
