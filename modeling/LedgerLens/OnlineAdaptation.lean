import LedgerLens.ClampedFeedback
import LedgerLens.ConformalCalibration
import LedgerLens.FallibleRuns
import Mathlib.Tactic.FinCases
import Mathlib.Tactic.NormNum

/-!
# Online adaptation of the threshold

`predict_set` and `adapt_online` of `ConformalCalibrator`: the threshold is moved by every labelled
outcome, and the outcome counts as a miss if the set that was predicted with the threshold left its
label out. However the outcomes are chosen, few more of them than the nominal share are missed.
-/
namespace OnlineAdaptation

open ClampedFeedback ConformalCalibration FallibleRuns

/-- The time of the last adaptation is left out. -/
structure AdaptiveCalibrator extends ConformalCalibrator where
  nAdaptations : ℕ
  deriving DecidableEq, Repr

inductive ConformalError where
  | runtimeError (message : String)
  | indexError
  deriving DecidableEq, Repr

structure PredictedRow where
  score : ℚ
  predictionSet : List ℕ
  coverageGuarantee : ℚ
  qHat : ℚ
  deriving DecidableEq, Repr

def predictionSet (qHat : ℚ) (rowProbs : List ℚ) : List ℕ :=
  (List.range rowProbs.length).filter fun j => ∃ p ∈ rowProbs[j]?, 1 - p ≤ qHat

variable (cal : AdaptiveCalibrator)

/-- `probs` is what the model predicts for the rows. -/
def AdaptiveCalibrator.predictSet (probs : List (List ℚ)) :
    Except ConformalError (List PredictedRow) :=
  match cal.qHat with
  | none => throw (.runtimeError "Call calibrate() before predict_set().")
  | some qHat => probs.mapM fun rowProbs =>
    match rowProbs[1]? with
    | none => throw .indexError
    | some score => return {
        score
        predictionSet := predictionSet qHat rowProbs
        coverageGuarantee := 1 - cal.alpha
        qHat }

def AdaptiveCalibrator.adaptOnline (covered : Bool) (gamma : ℚ) :
    Except ConformalError AdaptiveCalibrator :=
  match cal.qHat with
  | none => throw (.runtimeError "Call calibrate() before adapt_online().")
  | some qHat =>
    let error : ℚ := if covered then 0 else 1
    return { cal with
      qHat := some (max 0 (qHat + gamma * (error - cal.alpha)))
      nAdaptations := cal.nAdaptations + 1 }

/-- What a classifier predicted for an observation, and the class that it turned out to have. -/
structure Outcome where
  rowProbs : List ℚ
  nonneg : ∀ p ∈ rowProbs, 0 ≤ p
  classes : 2 ≤ rowProbs.length
  label : Fin rowProbs.length

/-- One outcome of the feedback: the set is predicted, then the threshold moved. The second
component counts the misses. -/
def observe (gamma : ℚ) (state : AdaptiveCalibrator × ℕ) (outcome : Outcome) :
    Except ConformalError (AdaptiveCalibrator × ℕ) := do
  let rows ← state.1.predictSet [outcome.rowProbs]
  let covered := rows.any fun row => outcome.label.val ∈ row.predictionSet
  let cal ← state.1.adaptOnline covered gamma
  return (cal, state.2 + if covered then 0 else 1)

variable {cal} {gamma qHat : ℚ} {misses : ℕ} {outcome : Outcome}

theorem mem_predictionSet :
    outcome.label.val ∈ predictionSet qHat outcome.rowProbs ↔
      1 - outcome.rowProbs[outcome.label] ≤ qHat := by
  simp [predictionSet]

theorem lt_one_of_missed (hmissed : outcome.label.val ∉ predictionSet qHat outcome.rowProbs) :
    qHat < 1 := by
  rw [mem_predictionSet, not_le] at hmissed
  have hnonneg := outcome.nonneg _ (List.getElem_mem outcome.label.isLt)
  simp only [Fin.getElem_fin] at hmissed
  linarith

def missed (qHat : ℚ) (outcome : Outcome) : Bool :=
  outcome.label.val ∉ predictionSet qHat outcome.rowProbs

theorem observe_eq (hcal : cal.qHat = some qHat) (misses : ℕ) :
    observe gamma (cal, misses) outcome = .ok
      ({ cal with
          qHat := some (adjust gamma cal.alpha qHat (missed qHat outcome))
          nAdaptations := cal.nAdaptations + 1 },
        misses + if missed qHat outcome then 1 else 0) := by
  have hclasses : 1 < outcome.rowProbs.length := outcome.classes
  have hscore : outcome.rowProbs[1]? = some outcome.rowProbs[1] :=
    List.getElem?_eq_getElem hclasses
  by_cases hmem : outcome.label.val ∈ predictionSet qHat outcome.rowProbs <;>
    simp [observe, AdaptiveCalibrator.predictSet, AdaptiveCalibrator.adaptOnline, hcal, hscore,
      missed, adjust, hmem]

/-- What `record_feedback_and_adapt` compares with the threshold, from a stored score. -/
def feedbackNonconformity (predictedScore : ℚ) (trueLabel : ℤ) : ℚ :=
  let probability := predictedScore / 100
  1 - if trueLabel = 1 then probability else 1 - probability

theorem feedbackNonconformity_le_iff (predictedScore qHat : ℚ) (trueLabel : Fin 2) :
    feedbackNonconformity predictedScore trueLabel.val ≤ qHat ↔
      trueLabel.val ∈ predictionSet qHat [1 - predictedScore / 100, predictedScore / 100] := by
  have hfirst : 1 - (1 - predictedScore / 100) = predictedScore / 100 := by ring
  fin_cases trueLabel
  · simp [feedbackNonconformity, predictionSet, hfirst, -tsub_le_iff_right]
  · simp [feedbackNonconformity, predictionSet]

/-- What is kept between the outcomes: the level, the number of adaptations and the tracked
threshold. -/
structure Adapted (gamma q₀ : ℚ) (start : AdaptiveCalibrator) (seen : ℕ)
    (state : AdaptiveCalibrator × ℕ) : Prop where
  alpha : state.1.alpha = start.alpha
  nAdaptations : state.1.nAdaptations = start.nAdaptations + seen
  tracked : ∃ q, state.1.qHat = some q ∧ Tracked gamma start.alpha 1 q₀ q state.2 seen

theorem Adapted.observe {start : AdaptiveCalibrator} {q₀ : ℚ} {seen : ℕ}
    {state : AdaptiveCalibrator × ℕ} (h : Adapted gamma q₀ start seen state) (hq₀ : 0 ≤ q₀)
    (hgamma : 0 < gamma) (hpos : 0 < start.alpha) (outcome : Outcome) :
    ∃ state', OnlineAdaptation.observe gamma state outcome = .ok state' ∧
      Adapted gamma q₀ start (seen + 1) state' := by
  obtain ⟨q, hq, htracked⟩ := h.tracked
  refine ⟨_, observe_eq hq state.2, h.alpha, ?_, _, rfl, ?_⟩
  · rw [h.nAdaptations, Nat.add_assoc]
  · rw [h.alpha]
    apply htracked.next hq₀ hgamma hpos
    intro hmissed
    exact lt_one_of_missed (of_decide_eq_true hmissed)

/-- After any outcomes, chosen in any way, the threshold is not negative, and the misses exceed
their nominal share by no more than what the threshold could rise. -/
theorem adaptOnline_miscoverage (gamma q₀ : ℚ) (cal : AdaptiveCalibrator)
    (hcal : cal.qHat = some q₀) (hq₀ : 0 ≤ q₀) (hgamma : 0 < gamma) (hpos : 0 < cal.alpha)
    (outcomes : List Outcome) :
    ∃ cal' misses q, outcomes.foldlM (observe gamma) (cal, 0) = .ok (cal', misses) ∧
      cal'.qHat = some q ∧ 0 ≤ q ∧
      cal'.nAdaptations = cal.nAdaptations + outcomes.length ∧
      (misses : ℚ) ≤ cal.alpha * outcomes.length + (max 1 q₀ + gamma - q₀) / gamma := by
  -- What the outcomes still to come lead to is found from the ones that were seen.
  let P (rest : List Outcome) (state : AdaptiveCalibrator × ℕ) : Prop :=
    ∃ seen, seen + rest.length = outcomes.length ∧ Adapted gamma q₀ cal seen state
  have start : P outcomes (cal, 0) :=
    ⟨0, zero_add _, rfl, rfl, q₀, hcal, .start hq₀ hgamma.le⟩
  have step : ∀ outcome rest state, P (outcome :: rest) state →
      ∃ state', observe gamma state outcome = .ok state' ∧ P rest state' := by
    rintro outcome rest state ⟨seen, hseen, hadapted⟩
    obtain ⟨state', hok, hnext⟩ := hadapted.observe hq₀ hgamma hpos outcome
    rw [List.length_cons] at hseen
    exact ⟨state', hok, seen + 1, by omega, hnext⟩
  obtain ⟨⟨cal', misses⟩, hrun, seen, hseen, hadapted⟩ := foldlM_succeeds step start
  obtain rfl : seen = outcomes.length := by simpa using hseen
  obtain ⟨q, hq, htracked⟩ := hadapted.tracked
  exact ⟨cal', misses, q, hrun, hq, htracked.nonneg, hadapted.nAdaptations,
    htracked.misses_le hgamma⟩

def sure (label : Fin 2) : Outcome where
  rowProbs := [9 / 10, 1 / 10]
  nonneg := by norm_num
  classes := le_rfl
  label := label

/-- From a half, with two misses among four outcomes. -/
theorem adaptOnline_sure :
    ∃ cal' misses q,
      [sure 1, sure 0, sure 1, sure 0].foldlM (observe (1 / 5))
        (⟨⟨some (1 / 2), 1 / 10, 100⟩, 0⟩, 0) = .ok (cal', misses) ∧
      cal'.qHat = some q ∧ 0 ≤ q ∧ cal'.nAdaptations = 0 + 4 ∧
      (misses : ℚ) ≤ 1 / 10 * (4 : ℕ) + (max 1 (1 / 2) + 1 / 5 - 1 / 2) / (1 / 5) :=
  adaptOnline_miscoverage (1 / 5) (1 / 2) ⟨⟨some (1 / 2), 1 / 10, 100⟩, 0⟩ rfl (by norm_num)
    (by norm_num) (by norm_num) [sure 1, sure 0, sure 1, sure 0]

end OnlineAdaptation
