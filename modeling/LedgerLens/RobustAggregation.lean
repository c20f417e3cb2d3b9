import LedgerLens.FederatedServer

/-!
# Trimmed-mean aggregation

`detection/federated/robust_aggregation.py`: in every coordinate the greatest and the least values
are cut away before the mean is taken. Fewer bad updates than the trimmed share cannot move a
coordinate out of the span of the good ones.
-/
namespace RobustAggregation

open FederatedServer SortedSums

variable {d : ℕ}

inductive TrimmedMeanError where
  | badTrimFraction (trimFraction : ℚ)
  | noUpdates
  deriving DecidableEq, Repr

def TrimmedMeanError.message (repr : ℚ → String) : TrimmedMeanError → String
  | .badTrimFraction f => "trim_fraction must be in [0, 0.5), got " ++ repr f
  | .noUpdates => "trimmed_mean requires at least one update"

def trimmedMean (updates : List (Labels d)) (trimFraction : ℚ) :
    Except TrimmedMeanError (Labels d) :=
  if ¬ (0 ≤ trimFraction ∧ trimFraction < 1 / 2) then throw (.badTrimFraction trimFraction)
  else if updates = [] then throw .noUpdates
  else pure (FederatedServer.trimmedMean updates trimFraction)

def cut (updates : List (Labels d)) (trimFraction : ℚ) : ℕ :=
  ⌊trimFraction * updates.length⌋.toNat

/-- What is left of a coordinate. -/
def keptSlice (updates : List (Labels d)) (trimFraction : ℚ) (c : Fin d) : List ℚ :=
  ((sorted (updates.map (· c))).take (updates.length - cut updates trimFraction)).drop
    (cut updates trimFraction)

theorem aggregate_trimmedMean {c : Config} (hc : c.aggregationStrategy = .trimmedMean)
    {updates : List (Update d)} (hne : updates ≠ []) : aggregate c updates =
      (trimmedMean (updates.map Update.noisySoftLabels) c.trimFraction).mapError
        fun _ => .badTrimFraction c.trimFraction := by
  have hmap : updates.map Update.noisySoftLabels ≠ [] := by simpa using hne
  rw [aggregate, hc, trimmedMean]
  by_cases hf : 0 ≤ c.trimFraction ∧ c.trimFraction < 1 / 2
  · simp only [hf, if_false, hmap]
    rfl
  · simp only [hf, not_false_iff, if_true, if_false]
    rfl

section Slice

variable {updates : List (Labels d)} {trimFraction : ℚ} (c : Fin d)

theorem two_cut_lt (hf : 0 ≤ trimFraction ∧ trimFraction < 1 / 2) (hne : updates ≠ []) :
    2 * cut updates trimFraction < updates.length := by
  have hpos : (0 : ℚ) < updates.length := by exact_mod_cast List.length_pos_of_ne_nil hne
  have hfloor : 0 ≤ ⌊trimFraction * updates.length⌋ :=
    Int.floor_nonneg.mpr (mul_nonneg hf.1 hpos.le)
  have hle := Int.floor_le (trimFraction * updates.length)
  have hcast : ((cut updates trimFraction : ℕ) : ℚ) = ⌊trimFraction * (updates.length : ℚ)⌋ := by
    rw [cut, ← Int.cast_natCast, Int.toNat_of_nonneg hfloor]
  have hlt : (2 : ℚ) * cut updates trimFraction < updates.length := by
    rw [hcast]
    nlinarith [hf.2]
  exact_mod_cast hlt

theorem card_le_cut (hf : 0 ≤ trimFraction) {b : ℕ} (hb : (b : ℚ) < trimFraction * updates.length) :
    b ≤ cut updates trimFraction := by
  rw [cut, Int.le_toNat (Int.floor_nonneg.mpr (by positivity)), Int.le_floor]
  exact_mod_cast hb.le

theorem length_keptSlice : (keptSlice updates trimFraction c).length =
    updates.length - 2 * cut updates trimFraction := by
  rw [keptSlice, List.length_drop, List.length_take, length_sorted, List.length_map]
  omega

theorem trimmedMean_eq_mean : FederatedServer.trimmedMean updates trimFraction c =
    (keptSlice updates trimFraction c).sum / (keptSlice updates trimFraction c).length := by
  rw [FederatedServer.trimmedMean]
  by_cases hcut : ⌊trimFraction * updates.length⌋.toNat = 0
  · have hkept : keptSlice updates trimFraction c = sorted (updates.map (· c)) := by
      rw [keptSlice, cut, hcut, List.drop_zero, Nat.sub_zero]
      exact List.take_of_length_le (by rw [length_sorted, List.length_map])
    rw [hkept, (sorted_perm _).sum_eq, length_sorted, List.length_map]
    exact if_pos hcut
  · exact if_neg hcut

theorem mean_mem_Icc {l : List ℚ} (hne : l ≠ []) {lo hi : ℚ} (h : ∀ x ∈ l, lo ≤ x ∧ x ≤ hi) :
    lo ≤ l.sum / l.length ∧ l.sum / l.length ≤ hi := by
  have hpos : (0 : ℚ) < l.length := by exact_mod_cast List.length_pos_of_ne_nil hne
  have hlo := List.card_nsmul_le_sum l lo fun x hx => (h x hx).1
  have hhi := List.sum_le_card_nsmul l hi fun x hx => (h x hx).2
  rw [nsmul_eq_mul] at hlo hhi
  rw [le_div_iff₀ hpos, div_le_iff₀ hpos]
  exact ⟨by linarith, by linarith⟩

theorem keptSlice_span {n k : ℕ} {l : List ℚ} (hl : l.Pairwise (· ≤ ·)) (hn : l.length = n)
    (hk : 2 * k < n) : ∀ x ∈ (l.take (n - k)).drop k,
      l.get ⟨k, by omega⟩ ≤ x ∧ x ≤ l.get ⟨n - k - 1, by omega⟩ := by
  intro x hx
  obtain ⟨i, hi, rfl⟩ := List.getElem_of_mem hx
  rw [List.length_drop, List.length_take] at hi
  rw [List.getElem_drop, List.getElem_take]
  have hmono {a b : ℕ} (hab : a ≤ b) (hb : b < l.length) : l[a] ≤ l[b] := by
    rcases hab.eq_or_lt with rfl | hlt
    · exact le_rfl
    · exact List.pairwise_iff_getElem.mp hl a b (by omega) hb hlt
  exact ⟨hmono (by omega) (by omega), hmono (by omega) (by omega)⟩

theorem trimmedMean_between (hf : 0 ≤ trimFraction ∧ trimFraction < 1 / 2) (hne : updates ≠ [])
    {B : Finset (Fin updates.length)} (hB : B.card ≤ cut updates trimFraction) :
    (∃ j ∉ B, updates.get j c ≤ FederatedServer.trimmedMean updates trimFraction c) ∧
      ∃ j ∉ B, FederatedServer.trimmedMean updates trimFraction c ≤ updates.get j c := by
  have hlt := two_cut_lt hf hne
  have hl := sorted_pairwise (updates.map (· c))
  have hn : (sorted (updates.map (· c))).length = updates.length := by
    rw [length_sorted, List.length_map]
  have hperm : (sorted (updates.map (· c))).Perm (List.ofFn fun i => updates.get i c) := by
    have hofFn : updates.map (· c) = List.ofFn fun i => updates.get i c := by
      apply List.ext_getElem <;> simp
    rw [← hofFn]
    exact sorted_perm _
  have hkept : keptSlice updates trimFraction c ≠ [] := by
    rw [← List.length_pos_iff, length_keptSlice]
    omega
  obtain ⟨hlo, hhi⟩ := mean_mem_Icc hkept (keptSlice_span hl hn hlt)
  rw [← trimmedMean_eq_mean] at hlo hhi
  obtain ⟨j, hj, hle⟩ := exists_le_getElem hl hperm (i := cut updates trimFraction) (by omega) hB
  obtain ⟨j', hj', hge⟩ := exists_getElem_le hl hperm
    (i := updates.length - cut updates trimFraction - 1) (B := B) (by omega) (by omega)
  exact ⟨⟨j, hj, hle.trans hlo⟩, ⟨j', hj', hhi.trans hge⟩⟩

theorem trimmedMean_perm {updates' : List (Labels d)} (h : updates'.Perm updates) :
    trimmedMean updates' trimFraction = trimmedMean updates trimFraction := by
  have hnil : updates' = [] ↔ updates = [] := by
    rw [← List.length_eq_zero_iff, ← List.length_eq_zero_iff, h.length_eq]
  have hmean : FederatedServer.trimmedMean updates' trimFraction =
      FederatedServer.trimmedMean updates trimFraction := by
    funext c
    have hcolumn := sorted_congr (h.map (· c))
    rw [trimmedMean_eq_mean, trimmedMean_eq_mean, keptSlice, keptSlice, cut, cut, hcolumn,
      h.length_eq]
  simp only [trimmedMean, hnil, hmean]

end Slice

/-- Fewer bad updates than the trimmed share: the mean exists, nothing is cut to emptiness,
every coordinate stays between two good values and the order of the updates plays no part. -/
theorem trimmedMean_robust (updates : List (Labels d)) (trimFraction : ℚ)
    (hf : 0 ≤ trimFraction ∧ trimFraction < 1 / 2) (B : Finset (Fin updates.length))
    (hB : (B.card : ℚ) < trimFraction * updates.length) :
    ∃ agg, trimmedMean updates trimFraction = .ok agg ∧
      (∀ c, keptSlice updates trimFraction c ≠ []) ∧
      (∀ c, (∃ j ∉ B, updates.get j c ≤ agg c) ∧ ∃ j ∉ B, agg c ≤ updates.get j c) ∧
      ∀ updates' : List (Labels d), updates'.Perm updates →
        trimmedMean updates' trimFraction = .ok agg := by
  have hne : updates ≠ [] := by
    rintro rfl
    have hpos := (Nat.cast_nonneg B.card).trans_lt hB
    simp at hpos
  have hok : trimmedMean updates trimFraction =
      .ok (FederatedServer.trimmedMean updates trimFraction) := by
    rw [trimmedMean, if_neg (not_not.mpr hf), if_neg hne]
    rfl
  refine ⟨_, hok, ?_, ?_, ?_⟩
  · intro c
    have hlt := two_cut_lt hf hne
    rw [← List.length_pos_iff, length_keptSlice]
    omega
  · exact fun c => trimmedMean_between c hf hne (card_le_cut hf.1 hB)
  · exact fun updates' h => (trimmedMean_perm h).trans hok

/-- Seven updates, the last two of them bad; two are cut away on each side. -/
def poisonedUpdates : List (Labels 1) := [1, 2, 3, 4, 5, 100, -100].map fun v _ => v

theorem trimmedMean_poisonedUpdates : ∃ agg, trimmedMean poisonedUpdates (1 / 3) = .ok agg ∧
    (∀ c, keptSlice poisonedUpdates (1 / 3) c ≠ []) ∧
    trimmedMean poisonedUpdates.reverse (1 / 3) = .ok agg := by
  obtain ⟨agg, hok, hkept, -, hperm⟩ := trimmedMean_robust poisonedUpdates (1 / 3) (by norm_num)
    {⟨5, by decide⟩, ⟨6, by decide⟩} (by norm_num [poisonedUpdates])
  exact ⟨agg, hok, hkept, hperm _ (List.reverse_perm _)⟩

end RobustAggregation
