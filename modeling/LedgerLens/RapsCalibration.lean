import LedgerLens.ConformalCalibration
import LedgerLens.FallibleRuns
import Mathlib.Data.List.MinMax

/-!
# Calibration of the regularised prediction sets

`raps_score` and `calibrate_raps` of `detection/conformal.py`. The level that is asked for is an
integer over `1 + 1/n`, so that below a miscoverage of one it selects the largest score, where the
documented quantile is the order statistic that `ConformalCalibrator` takes.
-/
namespace RapsCalibration

open ConformalCalibration FallibleRuns SortedSums

inductive RapsError where
  | indexError
  | zeroDivisionError
  | valueError (message : String)
  deriving DecidableEq, Repr

/-- `np.cumsum`. -/
def cumsum (l : List ℚ) : List ℚ := (l.scanl (· + ·) 0).tail

def entry {β : Type} (l : List β) (i : ℕ) : Except RapsError β :=
  match l[i]? with
  | none => throw .indexError
  | some b => pure b

section Scores

-- `np.argsort`: the order of ties is not specified.
variable (argsort : List ℚ → List ℕ) (lambdaReg : ℚ) (kReg : ℤ)

def rapsScore (softmaxProbs : List ℚ) (trueClass : ℤ) : Except RapsError ℚ :=
  let sortedIdx := argsort (softmaxProbs.map (- ·))
  match sortedIdx.findIdx? fun j => (j : ℤ) = trueClass with
  | none => throw .indexError
  | some rank => do
    let descending ← sortedIdx.mapM (entry softmaxProbs)
    let cumulative ← entry (cumsum descending) rank
    return cumulative + lambdaReg * max ((rank : ℤ) + 1 - kReg) 0

def calibrationScores (calSoftmaxProbs : List (List ℚ)) (calLabels : List ℤ) :
    Except RapsError (List ℚ) :=
  calLabels.zipIdx.mapM fun label => do
    let softmaxProbs ← entry calSoftmaxProbs label.2
    rapsScore argsort lambdaReg kReg softmaxProbs label.1

/-- The level is clamped from above only. -/
def qLevel (n : ℕ) (alpha : ℚ) : ℚ :=
  min ((⌈(1 - alpha) * (1 + 1 / n : ℚ)⌉ : ℚ) / (1 + 1 / n : ℚ)) 1

/-- `np.quantile` checks the level that it is given. -/
def calibrateRaps (calSoftmaxProbs : List (List ℚ)) (calLabels : List ℤ) (alpha : ℚ) :
    Except RapsError ℚ := do
  let n := calLabels.length
  let scores ← calibrationScores argsort lambdaReg kReg calSoftmaxProbs calLabels
  if n = 0 then throw .zeroDivisionError
  if qLevel n alpha < 0 then throw (.valueError "Quantiles must be in the range [0, 1]")
  match quantileHigher scores (qLevel n alpha) with
  | none => throw .indexError
  | some qHat => return qHat

end Scores

/-- The documented threshold: the score of the rank, the largest where the rank exceeds their
number. Below the first rank there is none. -/
def documentedThreshold (scores : List ℚ) (alpha : ℚ) : Option ℚ :=
  let rank := places scores.length alpha
  if scores.length < rank then scores.max?
  else if rank < 1 then none
  else (sorted scores)[(rank - 1).toNat]?

variable {argsort : List ℚ → List ℕ} {lambdaReg alpha : ℚ} {kReg : ℤ}
  {calSoftmaxProbs : List (List ℚ)} {calLabels : List ℤ} {scores : List ℚ} {n : ℕ} {q m : ℚ}

/-- Below a miscoverage of one the level is a positive integer over `1 + 1/n`, if not one. -/
theorem le_qLevel (hlt : alpha < 1) (hn : 0 < n) : (n : ℚ) / (n + 1) ≤ qLevel n alpha := by
  have hnpos : (0 : ℚ) < n := by exact_mod_cast hn
  have hrest : 0 < 1 - alpha := by linarith
  have hone : 1 ≤ ⌈(1 - alpha) * (1 + 1 / n : ℚ)⌉ := Int.one_le_ceil_iff.mpr (by positivity)
  have hcast : (1 : ℚ) ≤ ⌈(1 - alpha) * (1 + 1 / n : ℚ)⌉ := by exact_mod_cast hone
  apply le_min
  · have hunit : (n : ℚ) / (n + 1) = 1 / (1 + 1 / n) := by field_simp
    rw [hunit]
    gcongr
  · exact (div_le_one (by positivity)).mpr (by linarith)

theorem qLevel_nonneg (hlt : alpha < 1) (hn : 0 < n) : 0 ≤ qLevel n alpha :=
  le_trans (by positivity) (le_qLevel hlt hn)

theorem index_eq_last (hlt : alpha < 1) (hn : 0 < n) :
    ⌈(n - 1 : ℚ) * qLevel n alpha⌉.toNat = n - 1 := by
  have hone : (1 : ℚ) ≤ n := by exact_mod_cast hn
  have hceil : ⌈(n - 1 : ℚ) * qLevel n alpha⌉ = (n : ℤ) - 1 := by
    rw [Int.ceil_eq_iff]
    push_cast
    constructor
    · have hbelow : (n - 1 - 1 : ℚ) < (n - 1) * (n / (n + 1)) := by
        rw [mul_div_assoc', lt_div_iff₀ (by positivity)]
        linarith
      exact hbelow.trans_le (mul_le_mul_of_nonneg_left (le_qLevel hlt hn) (by linarith))
    · exact mul_le_of_le_one_right (by linarith) (min_le_right _ _)
  rw [hceil]
  omega

theorem max?_eq_some : scores.max? = some m ↔ m ∈ scores ∧ ∀ x ∈ scores, x ≤ m :=
  List.max?_eq_some_iff

theorem last_sorted (hpos : 0 < scores.length) :
    (sorted scores)[scores.length - 1]? = scores.max? := by
  have hlast : scores.length - 1 < (sorted scores).length := by
    rw [length_sorted]
    omega
  rw [List.getElem?_eq_getElem hlast, eq_comm, max?_eq_some]
  constructor
  · exact (sorted_perm scores).mem_iff.mp (List.getElem_mem hlast)
  · intro x hx
    apply le_getElem_of_mem_take (sorted_pairwise scores) hlast
    rw [Nat.sub_add_cancel hpos, ← length_sorted scores, List.take_length]
    exact (sorted_perm scores).mem_iff.mpr hx

theorem getElem?_eq_max_iff (hm : scores.max? = some m) {k : ℕ} (hk : k < scores.length) :
    (sorted scores)[k]? = some m ↔ scores.length ≤ k + scores.count m := by
  have hsorted : k < (sorted scores).length := by rwa [length_sorted]
  obtain ⟨-, hmax⟩ := max?_eq_some.mp hm
  have hle : (sorted scores)[k] ≤ m :=
    hmax _ ((sorted_perm scores).mem_iff.mp (List.getElem_mem hsorted))
  have hcount := countP_lt_add_count hmax
  rw [List.getElem?_eq_getElem hsorted, Option.some.injEq, le_antisymm_iff, and_iff_right hle,
    le_getElem_iff (sorted_pairwise scores) hsorted, (sorted_perm scores).countP_eq]
  omega

theorem length_calibrationScores
    (hscores : calibrationScores argsort lambdaReg kReg calSoftmaxProbs calLabels = .ok scores) :
    scores.length = calLabels.length := by
  rw [length_of_mapM hscores, List.length_zipIdx]

/-- Below a miscoverage of one the threshold is the largest score, whatever the miscoverage is. -/
theorem calibrateRaps_eq_max
    (hscores : calibrationScores argsort lambdaReg kReg calSoftmaxProbs calLabels = .ok scores)
    (hlt : alpha < 1) :
    calibrateRaps argsort lambdaReg kReg calSoftmaxProbs calLabels alpha = .ok q ↔
      scores.max? = some q := by
  have hlength := length_calibrationScores hscores
  rcases Nat.eq_zero_or_pos calLabels.length with hzero | hn
  · have hnil : scores = [] := List.length_eq_zero_iff.mp (hlength.trans hzero)
    simp [calibrateRaps, hscores, hzero, hnil, bind, Except.bind, throw, throwThe,
      MonadExceptOf.throw]
  · have hquantile : quantileHigher scores (qLevel calLabels.length alpha) = scores.max? := by
      rw [quantileHigher, hlength, index_eq_last hlt hn, ← hlength]
      exact last_sorted (by omega)
    rw [calibrateRaps, bind_eq_ok]
    simp only [hscores, Except.ok.injEq, exists_eq_left', hn.ne', if_false,
      not_lt.mpr (qLevel_nonneg hlt hn), hquantile]
    cases scores.max? <;> simp

theorem le_calibrateRaps
    (hscores : calibrationScores argsort lambdaReg kReg calSoftmaxProbs calLabels = .ok scores)
    (hlt : alpha < 1)
    (hq : calibrateRaps argsort lambdaReg kReg calSoftmaxProbs calLabels alpha = .ok q) :
    ∀ x ∈ scores, x ≤ q :=
  (max?_eq_some.mp ((calibrateRaps_eq_max hscores hlt).mp hq)).2

theorem places_add_floor (n : ℕ) (alpha : ℚ) : places n alpha + ⌊alpha * (n + 1)⌋ = n + 1 := by
  have hsplit : (n + 1 : ℚ) * (1 - alpha) = ((n + 1 : ℕ) : ℤ) + -(alpha * (n + 1)) := by
    push_cast
    ring
  rw [places, hsplit, Int.ceil_intCast_add, Int.ceil_neg]
  push_cast
  ring

theorem documentedThreshold_eq_none (hge : 1 ≤ alpha) :
    documentedThreshold scores alpha = none := by
  have hplaces : places scores.length alpha ≤ 0 := by
    rw [places, Int.ceil_le]
    have hrest : 1 - alpha ≤ 0 := by linarith
    exact_mod_cast mul_nonpos_of_nonneg_of_nonpos (by positivity) hrest
  rw [documentedThreshold, if_neg (by omega), if_pos (by omega)]

theorem documentedThreshold_eq_max_iff (hlt : alpha < 1) (hm : scores.max? = some m) :
    documentedThreshold scores alpha = some m ↔
      ⌊alpha * (scores.length + 1)⌋ ≤ scores.count m := by
  have hpos := places_pos hlt scores.length
  have hsum := places_add_floor scores.length alpha
  rw [documentedThreshold]
  by_cases hbeyond : (scores.length : ℤ) < places scores.length alpha
  · rw [if_pos hbeyond, hm, eq_self_iff_true, true_iff]
    omega
  · rw [if_neg hbeyond, if_neg (by omega), getElem?_eq_max_iff hm (by omega)]
    omega

/-- The threshold is the documented one exactly if the miscoverage is below one and the largest of
the scores occurs as often as the documented rank leaves places from the end. -/
theorem calibrateRaps_documented_iff (argsort : List ℚ → List ℕ) (lambdaReg : ℚ) (kReg : ℤ)
    (calSoftmaxProbs : List (List ℚ)) (calLabels : List ℤ) (alpha : ℚ) (scores : List ℚ)
    (hscores : calibrationScores argsort lambdaReg kReg calSoftmaxProbs calLabels = .ok scores) :
    (∃ qHat, calibrateRaps argsort lambdaReg kReg calSoftmaxProbs calLabels alpha = .ok qHat ∧
        documentedThreshold scores alpha = some qHat) ↔
      alpha < 1 ∧ ∃ m ∈ scores, (∀ x ∈ scores, x ≤ m) ∧
        ⌊alpha * (scores.length + 1)⌋ ≤ scores.count m := by
  constructor
  · rintro ⟨q, hq, hdocumented⟩
    have hlt : alpha < 1 := by
      by_contra hge
      simp [documentedThreshold_eq_none (not_lt.mp hge)] at hdocumented
    have hmax := (calibrateRaps_eq_max hscores hlt).mp hq
    obtain ⟨hmem, hle⟩ := max?_eq_some.mp hmax
    exact ⟨hlt, q, hmem, hle, (documentedThreshold_eq_max_iff hlt hmax).mp hdocumented⟩
  · rintro ⟨hlt, m, hmem, hle, hcount⟩
    have hmax : scores.max? = some m := max?_eq_some.mpr ⟨hmem, hle⟩
    exact ⟨m, (calibrateRaps_eq_max hscores hlt).mpr hmax,
      (documentedThreshold_eq_max_iff hlt hmax).mpr hcount⟩

/-- A stable `np.argsort`. -/
def stableArgsort (l : List ℚ) : List ℕ :=
  (l.zipIdx.insertionSort fun a b => a.1 ≤ b.1).map Prod.snd

def fourProbs : List (List ℚ) :=
  [[9 / 10, 1 / 10], [4 / 5, 1 / 5], [7 / 10, 3 / 10], [3 / 5, 2 / 5]]

theorem calibrationScores_fourProbs :
    calibrationScores stableArgsort (1 / 5) 2 fourProbs [0, 0, 0, 0] =
      .ok [9 / 10, 4 / 5, 7 / 10, 3 / 5] := by
  decide +kernel

/-- At a tenth the rank is five, which exceeds the number of the scores. -/
theorem calibrateRaps_fourProbs :
    ∃ qHat, calibrateRaps stableArgsort (1 / 5) 2 fourProbs [0, 0, 0, 0] (1 / 10) = .ok qHat ∧
      documentedThreshold [9 / 10, 4 / 5, 7 / 10, 3 / 5] (1 / 10) = some qHat :=
  (calibrateRaps_documented_iff stableArgsort (1 / 5) 2 fourProbs [0, 0, 0, 0] (1 / 10)
    [9 / 10, 4 / 5, 7 / 10, 3 / 5] calibrationScores_fourProbs).mpr (by decide +kernel)

/-- At a half the documented threshold is the third smallest of the four scores. -/
theorem not_calibrateRaps_fourProbs :
    calibrationScores stableArgsort (1 / 5) 2 fourProbs [0, 0, 0, 0] =
        .ok [9 / 10, 4 / 5, 7 / 10, 3 / 5] ∧
      documentedThreshold [9 / 10, 4 / 5, 7 / 10, 3 / 5] (1 / 2) = some (4 / 5) ∧
      calibrateRaps stableArgsort (1 / 5) 2 fourProbs [0, 0, 0, 0] (1 / 2) = .ok (9 / 10) :=
  ⟨calibrationScores_fourProbs, by decide +kernel, by decide +kernel⟩

end RapsCalibration
