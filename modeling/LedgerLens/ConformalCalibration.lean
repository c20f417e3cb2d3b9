import LedgerLens.SortedSums
import Mathlib.Data.List.FinRange
import Mathlib.Data.Rat.Floor
import Mathlib.Tactic.FieldSimp
import Mathlib.Tactic.Linarith
import Mathlib.Tactic.Positivity
import Mathlib.Tactic.Push
import Mathlib.Tactic.Ring

/-!
# Conformal calibration

`ConformalCalibrator.calibrate` of `detection/conformal.py`: the threshold of the nonconformity
scores, and how many of a list of scores are within the threshold of the others. The level is
rounded up to an order statistic, and a level above one is cut down to the largest score.
-/
namespace ConformalCalibration

open SortedSums

/-- `np.quantile(…, method="higher")`. No scores have no quantile. -/
def quantileHigher (scores : List ℚ) (q : ℚ) : Option ℚ :=
  (sorted scores)[⌈(scores.length - 1 : ℚ) * q⌉.toNat]?

/-- `1 - probs[i, y_i]`. -/
def nonconformity (trueClassProbs : List ℚ) : List ℚ := trueClassProbs.map (1 - ·)

/-- The finite-sample correction of the level, in places of the order. -/
def places (n : ℕ) (alpha : ℚ) : ℤ := ⌈(n + 1 : ℚ) * (1 - alpha)⌉

def qHat (alpha : ℚ) (scores : List ℚ) : Option ℚ :=
  quantileHigher scores (min (places scores.length alpha / scores.length) 1)

structure ConformalCalibrator where
  qHat : Option ℚ
  alpha : ℚ
  nCal : ℕ
  deriving DecidableEq, Repr

/-- A calibration without scores raises, having set the rest. -/
def ConformalCalibrator.calibrate (cal : ConformalCalibrator) (trueClassProbs : List ℚ)
    (alpha : Option ℚ) : ConformalCalibrator :=
  let alpha := alpha.getD cal.alpha
  let nScores := nonconformity trueClassProbs
  { cal with
    alpha := alpha
    nCal := nScores.length
    qHat := (ConformalCalibration.qHat alpha nScores).or cal.qHat }

variable {alpha : ℚ} {n : ℕ} {scores : List ℚ}

theorem places_pos (hlt : alpha < 1) (n : ℕ) : 0 < places n alpha := by
  apply Int.ceil_pos.mpr
  have hpos : 0 < 1 - alpha := by linarith
  positivity

theorem places_le_iff (n : ℕ) : places n alpha ≤ n ↔ 1 ≤ (n + 1 : ℚ) * alpha := by
  rw [places, Int.ceil_le, Int.cast_natCast]
  constructor
  · intro h
    linarith
  · intro h
    linarith

theorem places_le (hpos : 0 < alpha) (n : ℕ) : places n alpha ≤ n + 1 := by
  rw [places, Int.ceil_le]
  push_cast
  have hnpos : (0 : ℚ) < n + 1 := by positivity
  nlinarith

def position (n : ℕ) (alpha : ℚ) : ℕ := if places n alpha < n then (places n alpha).toNat else n - 1

theorem index_eq_position (hlt : alpha < 1) (hn : 0 < n) :
    ⌈(n - 1 : ℚ) * min ((places n alpha : ℚ) / n) 1⌉.toNat = position n alpha := by
  have hnpos : (0 : ℚ) < n := by exact_mod_cast hn
  have hplaces : (0 : ℚ) < places n alpha := by exact_mod_cast places_pos hlt n
  by_cases hinside : places n alpha < n
  · have hcast : (places n alpha : ℚ) < n := by exact_mod_cast hinside
    have hratio : (places n alpha : ℚ) / n < 1 := (div_lt_one hnpos).mpr hcast
    have hsplit : (n - 1 : ℚ) * (places n alpha / n) = places n alpha - places n alpha / n := by
      field_simp
    rw [position, if_pos hinside, min_eq_left hratio.le, hsplit]
    -- The fraction that is taken off is positive and less than one.
    have hceil : ⌈(places n alpha : ℚ) - places n alpha / n⌉ = places n alpha := by
      rw [Int.ceil_eq_iff]
      constructor
      · linarith
      · have hfraction : 0 < (places n alpha : ℚ) / n := div_pos hplaces hnpos
        linarith
    rw [hceil]
  · have hcast : (n : ℚ) ≤ places n alpha := by exact_mod_cast not_lt.mp hinside
    have hratio : 1 ≤ (places n alpha : ℚ) / n := (one_le_div hnpos).mpr hcast
    have hint : (n - 1 : ℚ) = ((n - 1 : ℕ) : ℤ) := by
      push_cast [Nat.cast_sub hn]
      ring
    rw [position, if_neg hinside, min_eq_right hratio, mul_one, hint, Int.ceil_intCast,
      Int.toNat_natCast]

theorem position_lt (hlt : alpha < 1) (hn : 0 < n) : position n alpha < n := by
  have hpos := places_pos hlt n
  unfold position
  split_ifs <;> omega

theorem qHat_eq (hlt : alpha < 1) (hscores : 0 < scores.length)
    (hposition : position scores.length alpha < (sorted scores).length) :
    qHat alpha scores = some (sorted scores)[position scores.length alpha] := by
  rw [qHat, quantileHigher, index_eq_position hlt hscores]
  exact List.getElem?_eq_getElem hposition

theorem calibrate_qHat {cal : ConformalCalibrator} {trueClassProbs : List ℚ} {level : Option ℚ}
    (hlt : level.getD cal.alpha < 1) (hprobs : 0 < trueClassProbs.length) :
    (cal.calibrate trueClassProbs level).qHat =
      qHat (level.getD cal.alpha) (nonconformity trueClassProbs) := by
  have hscores : 0 < (nonconformity trueClassProbs).length := by
    rwa [nonconformity, List.length_map]
  have hq := qHat_eq hlt hscores (by rw [length_sorted]; exact position_lt hlt hscores)
  rw [ConformalCalibrator.calibrate, hq, Option.some_or]

theorem le_qHat_iff (hlt : alpha < 1) (hscores : 0 < scores.length) (x : ℚ) :
    (∃ q ∈ qHat alpha scores, x ≤ q) ↔
      scores.countP (fun y => y < x) ≤ position scores.length alpha := by
  have hposition : position scores.length alpha < (sorted scores).length := by
    rw [length_sorted]
    exact position_lt hlt hscores
  rw [qHat_eq hlt hscores hposition, ← (sorted_perm scores).countP_eq,
    ← le_getElem_iff (sorted_pairwise scores) hposition]
  simp

def Covered (alpha : ℚ) (scores : List ℚ) (i : Fin scores.length) : Prop :=
  ∃ q ∈ qHat alpha (scores.eraseIdx i), scores[i] ≤ q

instance (i : Fin scores.length) : Decidable (Covered alpha scores i) :=
  inferInstanceAs (Decidable (∃ q ∈ qHat alpha (scores.eraseIdx i), _))

def coverage (alpha : ℚ) (scores : List ℚ) : ℕ :=
  (List.finRange scores.length).countP fun i => Covered alpha scores i

/-- No score is smaller than itself, so that leaving it out changes no count of smaller ones. -/
theorem countP_eraseIdx (i : Fin scores.length) :
    (scores.eraseIdx i).countP (fun y => y < scores[i]) =
      scores.countP (fun y => y < scores[i]) := by
  have hperm : (scores[i] :: scores.eraseIdx i).Perm scores :=
    List.getElem_cons_eraseIdx_perm i.isLt
  rw [← hperm.countP_eq, List.countP_cons_of_neg (by simp)]

theorem covered_iff (hlt : alpha < 1) (hlength : scores.length = n + 1) (hn : 0 < n)
    (i : Fin scores.length) :
    Covered alpha scores i ↔ scores.countP (fun y => y < scores[i]) ≤ position n alpha := by
  have herased : (scores.eraseIdx i).length = n := by
    rw [List.length_eraseIdx_of_lt i.isLt, hlength, Nat.add_sub_cancel]
  rw [Covered, le_qHat_iff hlt (by omega), countP_eraseIdx, herased]

theorem coverage_eq (hlt : alpha < 1) (hlength : scores.length = n + 1) (hn : 0 < n) :
    coverage alpha scores =
      scores.countP fun x => decide (scores.countP (fun y => y < x) ≤ position n alpha) := by
  conv_rhs => rw [← List.map_getElem_finRange scores, List.countP_map]
  apply List.countP_congr
  intro i _
  simp only [Function.comp_apply, decide_eq_true_iff, List.map_getElem_finRange]
  exact covered_iff hlt hlength hn i

theorem position_lt_coverage (hlt : alpha < 1) (hlength : scores.length = n + 1) (hn : 0 < n) :
    position n alpha < coverage alpha scores := by
  have hposition : position n alpha < (sorted scores).length := by
    rw [length_sorted, hlength]
    exact (position_lt hlt hn).trans (Nat.lt_succ_self n)
  rw [coverage_eq hlt hlength hn]
  apply (lt_countP_le_getElem (sorted_pairwise scores) hposition).trans_eq
  rw [(sorted_perm scores).countP_eq]
  apply List.countP_congr
  intro x _
  rw [decide_eq_true_iff, decide_eq_true_iff, le_getElem_iff (sorted_pairwise scores) hposition,
    (sorted_perm scores).countP_eq]

def TiedMaximum (scores : List ℚ) : Prop := ∃ m, (∀ x ∈ scores, x ≤ m) ∧ 2 ≤ scores.count m

theorem countP_lt_add_count {m : ℚ} (hmax : ∀ x ∈ scores, x ≤ m) :
    scores.countP (fun y => y < m) + scores.count m = scores.length := by
  have hcount : scores.count m = scores.countP (fun y => ¬ decide (y < m) = true) := by
    apply List.countP_congr
    intro x hx
    rw [beq_iff_eq, decide_eq_true_iff, decide_eq_true_iff, not_lt]
    exact ⟨fun heq => heq.ge, fun hle => le_antisymm (hmax x hx) hle⟩
  rw [hcount]
  exact (List.length_eq_countP_add_countP _).symm

theorem coverage_eq_length_iff (hlength : scores.length = n + 1) (hn : 0 < n) :
    (∀ x ∈ scores, scores.countP (fun y => y < x) ≤ n - 1) ↔ TiedMaximum scores := by
  constructor
  · intro hall
    have hne : scores ≠ [] := List.ne_nil_of_length_pos (by omega)
    obtain ⟨m, hm, hmax⟩ :=
      scores.toFinset.exists_max_image id ((List.toFinset_nonempty_iff _).mpr hne)
    rw [List.mem_toFinset] at hm
    have hbound : ∀ x ∈ scores, x ≤ m := fun x hx => hmax x (List.mem_toFinset.mpr hx)
    have hcount := countP_lt_add_count hbound
    exact ⟨m, hbound, by have := hall m hm; omega⟩
  · rintro ⟨m, hmax, htwice⟩ x hx
    have hcount := countP_lt_add_count hmax
    have hmono : scores.countP (fun y => y < x) ≤ scores.countP (fun y => y < m) := by
      apply List.countP_mono_left
      intro y _ hy
      rw [decide_eq_true_iff] at hy ⊢
      exact hy.trans_le (hmax x hx)
    omega

/-- Among any scores, as many as the guarantee names are within the threshold of the others exactly
if the miscoverage level is at least one in their number or the largest score is attained twice. -/
theorem coverage_iff (hpos : 0 < alpha) (hlt : alpha < 1) (hlength : scores.length = n + 1) :
    ⌈(1 - alpha) * (n + 1 : ℚ)⌉ ≤ coverage alpha scores ↔
      1 ≤ (n + 1 : ℚ) * alpha ∨ TiedMaximum scores := by
  have hplaces : ⌈(1 - alpha) * (n + 1 : ℚ)⌉ = places n alpha := by rw [places, mul_comm]
  rw [hplaces, ← places_le_iff]
  rcases Nat.eq_zero_or_pos n with rfl | hn
  · obtain ⟨x, rfl⟩ := List.length_eq_one_iff.mp hlength
    have hnone : coverage alpha [x] = 0 := by
      simp [coverage, Covered, qHat, quantileHigher, sorted]
    have hplaces_pos := places_pos hlt 0
    rw [hnone]
    constructor
    · intro hle
      exact .inl (by omega)
    · rintro (hle | ⟨m, -, htwice⟩)
      · omega
      · have hcount := List.count_le_length (a := m) (l := [x])
        simp only [List.length_singleton] at hcount
        omega
  · by_cases hinside : places n alpha ≤ n
    · have hcovered := position_lt_coverage hlt hlength hn
      have hplaces_pos := places_pos hlt n
      have hle : places n alpha ≤ coverage alpha scores := by
        unfold position at hcovered
        split_ifs at hcovered <;> omega
      exact ⟨fun _ => .inl hinside, fun _ => hle⟩
    · have hall : places n alpha = n + 1 := by
        have := places_le hpos n
        omega
      have hlast : position n alpha = n - 1 := if_neg (by omega)
      rw [← coverage_eq_length_iff hlength hn, coverage_eq hlt hlength hn, hlast]
      have hcard : scores.countP (fun x => decide (scores.countP (fun y => y < x) ≤ n - 1)) ≤
          scores.length := List.countP_le_length
      constructor
      · intro hcount
        right
        have heq : scores.countP (fun x => decide (scores.countP (fun y => y < x) ≤ n - 1)) =
            scores.length := by omega
        intro x hx
        exact of_decide_eq_true (List.countP_eq_length.mp heq x hx)
      · intro hor
        have hevery := hor.resolve_left hinside
        have heq : scores.countP (fun x => decide (scores.countP (fun y => y < x) ≤ n - 1)) =
            scores.length := by
          rw [List.countP_eq_length]
          exact fun x hx => decide_eq_true (hevery x hx)
        omega

theorem coverage_iff_three : ⌈(1 - 1 / 2) * ((2 : ℕ) + 1 : ℚ)⌉ ≤ coverage (1 / 2) [0, 1 / 2, 1] ↔
    1 ≤ ((2 : ℕ) + 1 : ℚ) * (1 / 2) ∨ TiedMaximum [0, 1 / 2, 1] :=
  coverage_iff (by norm_num) (by norm_num) rfl

/-- One calibration score is the threshold, whatever the level asks for. -/
theorem undercovered : ¬ ∀ (alpha : ℚ) (n : ℕ) (scores : List ℚ), 0 < alpha → alpha < 1 →
    scores.length = n + 1 → (∀ s ∈ scores, 0 ≤ s ∧ s ≤ 1) →
    ⌈(1 - alpha) * (n + 1 : ℚ)⌉ ≤ coverage alpha scores := by
  intro h
  have hcovered := h (1 / 10) 1 [0, 1 / 2] (by norm_num) (by norm_num) rfl (by norm_num)
  revert hcovered
  decide +kernel

end ConformalCalibration
