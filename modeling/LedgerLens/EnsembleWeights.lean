import LedgerLens.BoundedSimplex
import LedgerLens.LabelledRuns
import Mathlib.Tactic.LinearCombination
import Mathlib.Tactic.NormNum

/-!
# The envelope of the ensemble weights

`AdaptiveReweighter` of `detection/adaptive_reweighter.py`: the weights of three models follow their
F1 scores on the feedback of analysts, each step bounded by `maxDelta`, and are then projected onto
the weights between a floor and a ceiling that sum to one. Numbers are exact.
-/
namespace EnsembleWeights

open BoundedSimplex

inductive ModelName where
  | randomForest
  | xgboost
  | lightgbm
  deriving DecidableEq, Repr

def MODEL_NAMES_ORDER : List ModelName := [.randomForest, .xgboost, .lightgbm]

abbrev Weights := ModelName → ℚ

/-- Sums closer to one than this are not corrected. -/
def TOLERANCE : ℚ := 1 / 10 ^ 12

structure Config where
  minWeight : ℚ
  maxWeight : ℚ
  maxDelta : ℚ
  emaAlpha : ℚ
  nonneg : 0 ≤ minWeight
  ordered : minWeight ≤ maxWeight
  ceiling : maxWeight ≤ 1
  floors : (MODEL_NAMES_ORDER.length : ℚ) * minWeight ≤ 1

structure LabelFeedback where
  trueLabel : ℤ
  modelScores : ModelName → Option ℚ

structure Performance where
  precision : ℚ
  recallRate : ℚ
  f1 : ℚ

def predicted (threshold : ℚ) (model : ModelName) (fb : LabelFeedback) : Prop :=
  threshold ≤ (fb.modelScores model).getD 0 / 100

instance (threshold : ℚ) (model : ModelName) (fb : LabelFeedback) :
    Decidable (predicted threshold model fb) := inferInstanceAs (Decidable (_ ≤ _))

def compute (threshold : ℚ) (feedbacks : List LabelFeedback) (model : ModelName) : Performance :=
  let tp := feedbacks.countP fun fb => predicted threshold model fb ∧ fb.trueLabel = 1
  let fp := feedbacks.countP fun fb => predicted threshold model fb ∧ fb.trueLabel = 0
  let fn := feedbacks.countP fun fb => ¬ predicted threshold model fb ∧ fb.trueLabel = 1
  let precision : ℚ := if 0 < tp + fp then tp / (tp + fp) else 1
  let recallRate : ℚ := if 0 < tp + fn then tp / (tp + fn) else 0
  { precision := precision
    recallRate := recallRate
    f1 :=
      if 0 < precision + recallRate then 2 * precision * recallRate / (precision + recallRate)
      else 0 }

def target (f1 : Weights) : Weights := fun model =>
  if total MODEL_NAMES_ORDER f1 = 0 then 1 / 3 else f1 model / total MODEL_NAMES_ORDER f1

section Update

variable (c : Config)

def ema (old target : Weights) : Weights := fun model =>
  c.emaAlpha * target model + (1 - c.emaAlpha) * old model

def clamped (old new : Weights) : Weights := fun model =>
  max c.minWeight (old model + max (-c.maxDelta) (min c.maxDelta (new model - old model)))

def bounded (weights : Weights) : Weights := fun model =>
  clip c.minWeight c.maxWeight (weights model)

def projectWeights (weights : Weights) : Weights :=
  let projected := fill MODEL_NAMES_ORDER c.minWeight c.maxWeight 1 TOLERANCE
    (MODEL_NAMES_ORDER.length + 1) (bounded c weights)
  fun model => projected model / total MODEL_NAMES_ORDER projected

def applyStability (old new : Weights) : Weights := projectWeights c (clamped c old new)

def blended (old : Weights) (feedbacks : List LabelFeedback) : Weights :=
  ema c old (target fun model => (compute (1 / 2) feedbacks model).f1)

structure Reweighter where
  weights : Weights
  history : List Weights

def uniform : Weights := fun _ => 1 / 3

def Reweighter.updateWeights (r : Reweighter) (feedbacks : List LabelFeedback) : Reweighter :=
  if feedbacks = [] then r
  else
    let weights := applyStability c r.weights (blended c r.weights feedbacks)
    ⟨weights, r.history ++ [weights]⟩

/-- A new process reads the last row of the history, and projects it again. -/
def Reweighter.restart (r : Reweighter) : Reweighter :=
  ⟨(r.history.getLast?.map (projectWeights c)).getD uniform, r.history⟩

inductive Action where
  | update (feedbacks : List LabelFeedback)
  | restart

def Reweighter.perform (r : Reweighter) : Action → Reweighter
  | .update feedbacks => r.updateWeights c feedbacks
  | .restart => r.restart c

/-- A deployment starts with an empty history. -/
def Reweighter.init : Reweighter := ⟨uniform, []⟩

end Update

section Clamped

variable {lo hi δ : ℚ} {o e p : Weights}

/-- What clamping makes of a step from `o` to `e`. -/
structure Clamped (lo hi δ : ℚ) (o e p : Weights) : Prop where
  box : InBox lo hi p
  near : ∀ m, o m - δ ≤ p m ∧ p m ≤ o m + δ
  above : ∀ m, p m < e m → p m < hi → p m = o m + δ
  below : ∀ m, e m < p m → lo < p m → p m = o m - δ
  reached : ∀ m, o m + δ < e m → o m + δ < hi → p m = o m + δ
  sunk : ∀ m, e m < o m - δ → lo < o m - δ → p m = o m - δ

theorem Clamped.neg (h : Clamped lo hi δ o e p) : Clamped (-hi) (-lo) δ (-o) (-e) (-p) := by
  refine ⟨fun m => ?_, fun m => ?_, fun m => ?_, fun m => ?_, fun m => ?_, fun m => ?_⟩
  · exact h.box.neg m
  · have := h.near m
    simp only [Pi.neg_apply]
    constructor <;> linarith
  · intro hlt hlo
    have := h.below m (neg_lt_neg_iff.mp hlt) (neg_lt_neg_iff.mp hlo)
    simp only [Pi.neg_apply]
    linarith
  · intro hlt hhi
    have := h.above m (neg_lt_neg_iff.mp hlt) (neg_lt_neg_iff.mp hhi)
    simp only [Pi.neg_apply]
    linarith
  · intro hlt hlo
    simp only [Pi.neg_apply] at hlt hlo ⊢
    have := h.sunk m (by linarith) (by linarith)
    linarith
  · intro hlt hhi
    simp only [Pi.neg_apply] at hlt hhi ⊢
    have := h.reached m (by linarith) (by linarith)
    linarith

theorem clamped_bounded {c : Config} (hδ : 0 ≤ c.maxDelta) (ho : InBox c.minWeight c.maxWeight o)
    (e : Weights) :
    Clamped c.minWeight c.maxWeight c.maxDelta o e (bounded c (clamped c o e)) := by
  have hvalue (m : ModelName) : bounded c (clamped c o e) m =
      min c.maxWeight (max c.minWeight
          (max (o m - c.maxDelta) (min (o m + c.maxDelta) (e m)))) := by
    rw [bounded, clip, clamped, ← max_add_add_left, ← min_add_add_left, add_sub_cancel,
      ← sub_eq_add_neg, ← max_assoc c.minWeight, max_self]
  have hle (m : ModelName) : bounded c (clamped c o e) m ≤ o m + c.maxDelta := by
    have hm := ho m
    rw [hvalue]
    refine (min_le_right _ _).trans (max_le (by linarith) (max_le (by linarith) ?_))
    exact min_le_left _ _
  have hge (m : ModelName) : o m - c.maxDelta ≤ bounded c (clamped c o e) m := by
    have hm := ho m
    rw [hvalue]
    exact le_min (by linarith) ((le_max_left _ _).trans (le_max_right _ _))
  refine ⟨fun m => ⟨?_, ?_⟩, fun m => ⟨hge m, hle m⟩, fun m hlt hhi => ?_, fun m hlt hlo => ?_,
    fun m hlt hhi => ?_, fun m hlt hlo => ?_⟩
  · rw [hvalue]
    exact le_min c.ordered (le_max_left _ _)
  · rw [hvalue]
    exact min_le_left _ _
  · refine le_antisymm (hle m) ?_
    rw [hvalue] at hlt hhi ⊢
    have hmin := (min_lt_iff.mp hhi).resolve_left (lt_irrefl _)
    rw [min_eq_right hmin.le] at hlt ⊢
    have hx := (le_max_right _ _).trans_lt ((le_max_right _ _).trans_lt hlt)
    have hreached := (min_lt_iff.mp hx).resolve_right (lt_irrefl _)
    rw [min_eq_left hreached.le]
    exact (le_max_right _ _).trans (le_max_right _ _)
  · refine le_antisymm ?_ (hge m)
    rw [hvalue] at hlt hlo ⊢
    have hfloor := (lt_max_iff.mp (lt_min_iff.mp hlo).2).resolve_left (lt_irrefl _)
    rw [max_eq_right hfloor.le] at hlt ⊢
    have hsunk := lt_max_iff.mp (lt_min_iff.mp hlt).2
    have hstep := hsunk.resolve_right (not_lt.mpr (min_le_right _ _))
    rw [max_eq_left ((min_le_right _ _).trans hstep.le)]
    exact min_le_right _ _
  · refine le_antisymm (hle m) ?_
    rw [hvalue, min_eq_left hlt.le]
    exact le_min hhi.le ((le_max_right _ _).trans (le_max_right _ _))
  · refine le_antisymm ?_ (hge m)
    rw [hvalue, max_eq_left ((min_le_right _ _).trans hlt.le), max_eq_right hlo.le]
    exact min_le_right _ _

end Clamped

section Projection

variable {lo hi δ sum : ℚ} {o e p : Weights}

theorem exists_third {j m : ModelName} (h : j ≠ m) : ∃ k, MODEL_NAMES_ORDER.Perm [j, m, k] := by
  cases j <;> cases m <;> first
    | exact absurd rfl h
    | exact ⟨.randomForest, by decide⟩
    | exact ⟨.xgboost, by decide⟩
    | exact ⟨.lightgbm, by decide⟩

theorem exists_others (j : ModelName) : ∃ m k, MODEL_NAMES_ORDER.Perm [j, m, k] := by
  cases j
  · exact ⟨.xgboost, .lightgbm, by decide⟩
  · exact ⟨.randomForest, .lightgbm, by decide⟩
  · exact ⟨.randomForest, .xgboost, by decide⟩

theorem mem_order (m : ModelName) : m ∈ MODEL_NAMES_ORDER := by
  cases m <;> decide

theorem Clamped.exists_at_ceiling (h : Clamped lo hi δ o e p)
    (hless : total MODEL_NAMES_ORDER p < total MODEL_NAMES_ORDER e)
    (hfree : ∀ m, ¬ (o m + δ < e m ∧ o m + δ < hi)) : ∃ j, p j = hi := by
  obtain ⟨j, hj⟩ : ∃ j, p j < e j := by
    by_contra hnone
    push Not at hnone
    exact absurd (total_mono hnone) (not_le.mpr hless)
  refine ⟨j, le_antisymm (h.box j).2 (not_lt.mp fun hlt => ?_)⟩
  have hcut := h.above j hj hlt
  exact hfree j ⟨hcut ▸ hj, hcut ▸ hlt⟩

theorem tolerance_pos : 0 < TOLERANCE := by
  rw [TOLERANCE]
  positivity

/-- Clamped weights that are raised to the sum keep to the changes allowed. -/
theorem Clamped.raised (h : Clamped lo hi δ o e p) (ho : InBox lo hi o)
    (hsum : total MODEL_NAMES_ORDER o = sum) (hsum' : total MODEL_NAMES_ORDER e = sum)
    (hroom : sum ≤ 3 * hi) (hd : TOLERANCE ≤ sum - total MODEL_NAMES_ORDER p)
    (hfree : ∀ m, ¬ (o m + δ < e m ∧ o m + δ < hi))
    (hover : ∀ m, p m < hi →
      0 < overshoot MODEL_NAMES_ORDER lo hi (sum - total MODEL_NAMES_ORDER p) p m →
        TOLERANCE ≤ overshoot MODEL_NAMES_ORDER lo hi (sum - total MODEL_NAMES_ORDER p) p m) :
    let q := fill MODEL_NAMES_ORDER lo hi sum TOLERANCE (MODEL_NAMES_ORDER.length + 1) p
    total MODEL_NAMES_ORDER q = sum ∧ InBox lo hi q ∧ ∀ m, o m - δ ≤ q m ∧ q m ≤ o m + δ := by
  intro q
  have hless : total MODEL_NAMES_ORDER p < total MODEL_NAMES_ORDER e := by
    have := tolerance_pos
    linarith
  obtain ⟨j, hj⟩ := h.exists_at_ceiling hless hfree
  obtain ⟨m, k, hnames⟩ := exists_others j
  have htotal : total MODEL_NAMES_ORDER q = sum :=
    total_fill_three hnames h.box hj hroom tolerance_pos hd hover 2
  obtain ⟨hle, hbox, -⟩ := fill_raise MODEL_NAMES_ORDER tolerance_pos h.box
    (hless.le.trans hsum'.le) (MODEL_NAMES_ORDER.length + 1)
  have hqj : q j = hi := le_antisymm (hbox j).2 (hj ▸ hle j)
  refine ⟨htotal, hbox, fun i => ⟨(h.near i).1.trans (hle i), ?_⟩⟩
  by_cases hij : j = i
  · subst hij
    rw [hqj, ← hj]
    exact (h.near j).2
  · obtain ⟨k', hnames'⟩ := exists_third hij
    have hlow := (h.near k').1.trans (hle k')
    have hfull := (ho j).2
    rw [total_three hnames'] at htotal hsum
    linarith

/-- A change cut off under the ceiling is undone, and so is the ceiling by a round that stops just
short of the sum. -/
theorem Clamped.raised_conv (h : Clamped lo hi δ o e p) (hsum' : total MODEL_NAMES_ORDER e = sum)
    (hroom : sum ≤ 3 * hi) (hd : TOLERANCE ≤ sum - total MODEL_NAMES_ORDER p) :
    let q := fill MODEL_NAMES_ORDER lo hi sum TOLERANCE (MODEL_NAMES_ORDER.length + 1) p
    (∃ m, o m + δ < q m) ∨
      (∃ j m r, 0 < r ∧ q j = hi ∧ q m = hi ∧ j ≠ m ∧ total MODEL_NAMES_ORDER q = sum - r) ∨
      ((∀ m, ¬ (o m + δ < e m ∧ o m + δ < hi)) ∧ ∀ m, p m < hi →
        0 < overshoot MODEL_NAMES_ORDER lo hi (sum - total MODEL_NAMES_ORDER p) p m →
          TOLERANCE ≤ overshoot MODEL_NAMES_ORDER lo hi (sum - total MODEL_NAMES_ORDER p) p m) := by
  intro q
  by_cases hfree : ∃ m, o m + δ < e m ∧ o m + δ < hi
  · obtain ⟨m, hcut, hceiling⟩ := hfree
    have hreached := h.reached m hcut hceiling
    refine .inl ⟨m, hreached ▸ ?_⟩
    exact lt_fill h.box hd tolerance_pos (mem_order m) (hreached ▸ hceiling) _
  rw [not_exists] at hfree
  refine .inr (or_iff_not_imp_left.mpr fun hshort => ⟨hfree, fun m hlow hover => ?_⟩)
  by_contra hlt
  have hless : total MODEL_NAMES_ORDER p < total MODEL_NAMES_ORDER e := by
    have := tolerance_pos
    linarith
  obtain ⟨j, hj⟩ := h.exists_at_ceiling hless hfree
  have hne : j ≠ m := fun heq => absurd (heq ▸ hj) hlow.ne
  obtain ⟨k, hnames⟩ := exists_third hne
  obtain ⟨hqj, hqm, htotal⟩ :=
    fill_short hnames h.box hj hroom tolerance_pos hd hlow hover (not_le.mp hlt) 2
  exact hshort ⟨j, m, _, hover, hqj, hqm, hne, htotal⟩

theorem cut_neg_iff (m : ModelName) :
    ((-o) m + δ < (-e) m ∧ (-o) m + δ < -lo) ↔ (e m < o m - δ ∧ lo < o m - δ) := by
  simp only [Pi.neg_apply]
  constructor <;> rintro ⟨h₁, h₂⟩ <;> constructor <;> linarith

theorem missing_neg (sum : ℚ) (p : Weights) :
    -sum - total MODEL_NAMES_ORDER (-p) = -(sum - total MODEL_NAMES_ORDER p) := by
  rw [total_neg]
  ring

/-- The mirror image of `Clamped.raised`. -/
theorem Clamped.lowered (h : Clamped lo hi δ o e p) (hbounds : lo ≤ hi) (ho : InBox lo hi o)
    (hsum : total MODEL_NAMES_ORDER o = sum) (hsum' : total MODEL_NAMES_ORDER e = sum)
    (hroom : 3 * lo ≤ sum) (hd : TOLERANCE ≤ total MODEL_NAMES_ORDER p - sum)
    (hfree : ∀ m, ¬ (e m < o m - δ ∧ lo < o m - δ))
    (hunder : ∀ m, lo < p m →
      0 < undershoot MODEL_NAMES_ORDER lo hi (sum - total MODEL_NAMES_ORDER p) p m →
        TOLERANCE ≤ undershoot MODEL_NAMES_ORDER lo hi (sum - total MODEL_NAMES_ORDER p) p m) :
    let q := fill MODEL_NAMES_ORDER lo hi sum TOLERANCE (MODEL_NAMES_ORDER.length + 1) p
    total MODEL_NAMES_ORDER q = sum ∧ InBox lo hi q ∧ ∀ m, o m - δ ≤ q m ∧ q m ≤ o m + δ := by
  intro q
  have hraised := h.neg.raised ho.neg (by rw [total_neg, hsum]) (by rw [total_neg, hsum'])
    (by linarith) (by rw [missing_neg]; linarith)
    (by simpa only [cut_neg_iff] using hfree)
    (by simpa only [missing_neg, overshoot_neg, Pi.neg_apply, neg_lt_neg_iff] using hunder)
  simp only [fill_neg hbounds, total_neg, neg_inj] at hraised
  obtain ⟨htotal, hbox, hnear⟩ := hraised
  refine ⟨htotal, fun m => ?_, fun m => ?_⟩
  · exact ⟨neg_le_neg_iff.mp (hbox m).2, neg_le_neg_iff.mp (hbox m).1⟩
  · have hm := hnear m
    simp only [Pi.neg_apply] at hm
    constructor <;> linarith

/-- The mirror image of `Clamped.raised_conv`. -/
theorem Clamped.lowered_conv (h : Clamped lo hi δ o e p) (hbounds : lo ≤ hi)
    (hsum' : total MODEL_NAMES_ORDER e = sum) (hroom : 3 * lo ≤ sum)
    (hd : TOLERANCE ≤ total MODEL_NAMES_ORDER p - sum) :
    let q := fill MODEL_NAMES_ORDER lo hi sum TOLERANCE (MODEL_NAMES_ORDER.length + 1) p
    (∃ m, q m < o m - δ) ∨
      (∃ j m r, 0 < r ∧ q j = lo ∧ q m = lo ∧ j ≠ m ∧ total MODEL_NAMES_ORDER q = sum + r) ∨
      ((∀ m, ¬ (e m < o m - δ ∧ lo < o m - δ)) ∧ ∀ m, lo < p m →
        0 < undershoot MODEL_NAMES_ORDER lo hi (sum - total MODEL_NAMES_ORDER p) p m →
          TOLERANCE ≤ undershoot MODEL_NAMES_ORDER lo hi
              (sum - total MODEL_NAMES_ORDER p) p m) := by
  intro q
  have hconv := h.neg.raised_conv (by rw [total_neg, hsum']) (by linarith)
    (by rw [missing_neg]; linarith)
  simp only [fill_neg hbounds, missing_neg, overshoot_neg, cut_neg_iff] at hconv
  simp only [Pi.neg_apply, total_neg, neg_inj, neg_lt_neg_iff] at hconv
  rcases hconv with ⟨m, hm⟩ | ⟨j, m, r, hr, hj, hqm, hne, hshort⟩ | hsettled
  · exact .inl ⟨m, by linarith⟩
  · exact .inr (.inl ⟨j, m, r, hr, hj, hqm, hne, by linarith⟩)
  · exact .inr (.inr hsettled)

end Projection

section Envelope

structure InEnvelope (c : Config) (w : Weights) : Prop where
  sum : total MODEL_NAMES_ORDER w = 1
  box : InBox c.minWeight c.maxWeight w

/-- Weights in the envelope that no model's has left by more than `maxDelta`. -/
structure Within (c : Config) (old new : Weights) : Prop extends InEnvelope c new where
  near : ∀ m, |new m - old m| ≤ c.maxDelta

/-- The condition on the step from the old weights to the blended ones. Clamped weights that miss
the sum by less than the tolerance must leave room for the scaling. Otherwise no change may be cut
off by `maxDelta` on the side to which the weights are moved, and no model may reach its bound just
short of the sum. -/
def Settles (c : Config) (old new : Weights) : Prop :=
  let p := bounded c (clamped c old new)
  let d := 1 - total MODEL_NAMES_ORDER p
  if |d| < TOLERANCE then
    ∀ m, max c.minWeight (old m - c.maxDelta) * total MODEL_NAMES_ORDER p ≤ p m ∧
      p m ≤ min c.maxWeight (old m + c.maxDelta) * total MODEL_NAMES_ORDER p
  else if 0 < d then
    (∀ m, ¬ (old m + c.maxDelta < new m ∧ old m + c.maxDelta < c.maxWeight)) ∧
      ∀ m, p m < c.maxWeight →
        0 < overshoot MODEL_NAMES_ORDER c.minWeight c.maxWeight d p m →
          TOLERANCE ≤ overshoot MODEL_NAMES_ORDER c.minWeight c.maxWeight d p m
  else
    (∀ m, ¬ (new m < old m - c.maxDelta ∧ c.minWeight < old m - c.maxDelta)) ∧
      ∀ m, c.minWeight < p m →
        0 < undershoot MODEL_NAMES_ORDER c.minWeight c.maxWeight d p m →
          TOLERANCE ≤ undershoot MODEL_NAMES_ORDER c.minWeight c.maxWeight d p m

variable {c : Config} {old new w : Weights}

theorem total_div (t : ℚ) :
    total MODEL_NAMES_ORDER (fun m => w m / t) = total MODEL_NAMES_ORDER w / t := by
  simp only [total, MODEL_NAMES_ORDER, List.map_cons, List.map_nil, List.sum_cons, List.sum_nil]
  ring

theorem within_iff : Within c old w ↔ total MODEL_NAMES_ORDER w = 1 ∧
    ∀ m, max c.minWeight (old m - c.maxDelta) ≤ w m ∧
      w m ≤ min c.maxWeight (old m + c.maxDelta) := by
  constructor
  · rintro ⟨⟨hsum, hbox⟩, hnear⟩
    refine ⟨hsum, fun m => ?_⟩
    have hm := abs_le.mp (hnear m)
    exact ⟨max_le (hbox m).1 (by linarith), le_min (hbox m).2 (by linarith)⟩
  · rintro ⟨hsum, hall⟩
    refine ⟨⟨hsum, fun m => ?_⟩, fun m => abs_le.mpr ?_⟩
    · exact ⟨(max_le_iff.mp (hall m).1).1, (le_min_iff.mp (hall m).2).1⟩
    · have hlow := (max_le_iff.mp (hall m).1).2
      have hhigh := (le_min_iff.mp (hall m).2).2
      constructor <;> linarith

theorem within_of_total (hsum : total MODEL_NAMES_ORDER w = 1)
    (hbox : InBox c.minWeight c.maxWeight w)
    (hnear : ∀ m, old m - c.maxDelta ≤ w m ∧ w m ≤ old m + c.maxDelta) :
    Within c old fun m => w m / total MODEL_NAMES_ORDER w := by
  simp only [hsum, div_one]
  refine within_iff.mpr
    ⟨hsum, fun m => ⟨max_le (hbox m).1 (hnear m).1, le_min (hbox m).2 (hnear m).2⟩⟩

theorem within_close_iff {p : Weights} (hclose : |1 - total MODEL_NAMES_ORDER p| < TOLERANCE) :
    Within c old (fun m => p m / total MODEL_NAMES_ORDER p) ↔
      ∀ m, max c.minWeight (old m - c.maxDelta) * total MODEL_NAMES_ORDER p ≤ p m ∧
        p m ≤ min c.maxWeight (old m + c.maxDelta) * total MODEL_NAMES_ORDER p := by
  have hpos : 0 < total MODEL_NAMES_ORDER p := by
    have hlt := (abs_lt.mp hclose).2
    have htolerance : TOLERANCE < 1 := by
      rw [TOLERANCE]
      norm_num
    linarith
  rw [within_iff, total_div, div_self hpos.ne', and_iff_right rfl]
  refine forall_congr' fun m => ?_
  rw [le_div_iff₀ hpos, div_le_iff₀ hpos]

variable (hceiling : 1 ≤ 3 * c.maxWeight) (hδ : 0 ≤ c.maxDelta) (hold : InEnvelope c old)
  (hnew : total MODEL_NAMES_ORDER new = 1)

include hceiling hδ hold hnew

omit hδ hold hnew in
theorem raised_pos (hbox : InBox c.minWeight c.maxWeight w)
    (hd : TOLERANCE ≤ 1 - total MODEL_NAMES_ORDER w) (m : ModelName) :
    0 < fill MODEL_NAMES_ORDER c.minWeight c.maxWeight 1 TOLERANCE
      (MODEL_NAMES_ORDER.length + 1) w m := by
  have hmono := (fill_raise MODEL_NAMES_ORDER tolerance_pos hbox
    (sub_nonneg.mp (tolerance_pos.le.trans hd)) (MODEL_NAMES_ORDER.length + 1)).1 m
  have hm := hbox m
  have hnonneg := c.nonneg
  rcases hm.2.eq_or_lt with hfull | hlow
  · linarith
  · have hlt := lt_fill hbox hd tolerance_pos (mem_order m) hlow MODEL_NAMES_ORDER.length
    linarith

/-- Clamped weights below the sum are raised. -/
theorem within_raised_iff
    (hd : TOLERANCE ≤ 1 - total MODEL_NAMES_ORDER (bounded c (clamped c old new))) :
    let p := bounded c (clamped c old new)
    Within c old (applyStability c old new) ↔
      (∀ m, ¬ (old m + c.maxDelta < new m ∧ old m + c.maxDelta < c.maxWeight)) ∧
        ∀ m, p m < c.maxWeight →
          0 < overshoot MODEL_NAMES_ORDER c.minWeight c.maxWeight
            (1 - total MODEL_NAMES_ORDER p) p m →
            TOLERANCE ≤ overshoot MODEL_NAMES_ORDER c.minWeight c.maxWeight
              (1 - total MODEL_NAMES_ORDER p) p m := by
  intro p
  have hclamped := clamped_bounded hδ hold.box new
  constructor
  · intro hwithin
    have hpos := raised_pos hceiling hclamped.box hd
    obtain ⟨-, -, hsum⟩ := fill_raise MODEL_NAMES_ORDER tolerance_pos hclamped.box
      (sub_nonneg.mp (tolerance_pos.le.trans hd)) (MODEL_NAMES_ORDER.length + 1)
    have hconv := hclamped.raised_conv hnew hceiling hd
    have hbounds := (within_iff.mp hwithin).2
    simp only [applyStability, projectWeights] at hbounds
    generalize fill MODEL_NAMES_ORDER c.minWeight c.maxWeight 1 TOLERANCE
      (MODEL_NAMES_ORDER.length + 1) p = q at hpos hsum hconv hbounds
    have htotal : 0 < total MODEL_NAMES_ORDER q := by
      have hparts : total MODEL_NAMES_ORDER q = q .randomForest + q .xgboost + q .lightgbm :=
        total_three (.refl _) q
      have := hpos .randomForest
      have := hpos .xgboost
      have := hpos .lightgbm
      linarith
    rcases hconv with ⟨m, hm⟩ | ⟨j, m, r, hr, hj, -, -, hshort⟩ | hsettled
    · have hscaled : q m ≤ q m / total MODEL_NAMES_ORDER q :=
        (le_div_iff₀ htotal).mpr (mul_le_of_le_one_right (hpos m).le hsum)
      have hhigh := (le_min_iff.mp (hbounds m).2).2
      exact absurd (hscaled.trans hhigh) (not_le.mpr hm)
    · have hhigh := (le_min_iff.mp (hbounds j).2).1
      rw [div_le_iff₀ htotal, hj, hshort] at hhigh
      have hc : 0 < c.maxWeight := by linarith
      have := mul_pos hc hr
      linarith
    · exact hsettled
  · rintro ⟨hfree, hover⟩
    obtain ⟨hsum, hbox, hnear⟩ :=
      hclamped.raised hold.box hold.sum hnew hceiling hd hfree hover
    exact within_of_total hsum hbox hnear

omit hceiling in
/-- Clamped weights above the sum are lowered. -/
theorem within_lowered_iff
    (hd : TOLERANCE ≤ total MODEL_NAMES_ORDER (bounded c (clamped c old new)) - 1) :
    let p := bounded c (clamped c old new)
    Within c old (applyStability c old new) ↔
      (∀ m, ¬ (new m < old m - c.maxDelta ∧ c.minWeight < old m - c.maxDelta)) ∧
        ∀ m, c.minWeight < p m →
          0 < undershoot MODEL_NAMES_ORDER c.minWeight c.maxWeight
              (1 - total MODEL_NAMES_ORDER p) p m →
            TOLERANCE ≤ undershoot MODEL_NAMES_ORDER c.minWeight c.maxWeight
              (1 - total MODEL_NAMES_ORDER p) p m := by
  intro p
  have hfloors : 3 * c.minWeight ≤ 1 := c.floors
  have hclamped := clamped_bounded hδ hold.box new
  constructor
  · intro hwithin
    obtain ⟨-, hbox, hsum⟩ := fill_lower MODEL_NAMES_ORDER c.ordered tolerance_pos hclamped.box
      (sub_nonneg.mp (tolerance_pos.le.trans hd)) (MODEL_NAMES_ORDER.length + 1)
    have hconv := hclamped.lowered_conv c.ordered hnew hfloors hd
    have hbounds := (within_iff.mp hwithin).2
    simp only [applyStability, projectWeights] at hbounds
    generalize fill MODEL_NAMES_ORDER c.minWeight c.maxWeight 1 TOLERANCE
      (MODEL_NAMES_ORDER.length + 1) p = q at hbox hsum hconv hbounds
    have hpos : 0 < total MODEL_NAMES_ORDER q := by linarith
    have hnonneg := c.nonneg
    rcases hconv with ⟨m, hm⟩ | ⟨j, m, r, hr, hj, hqm, hne, hshort⟩ | hsettled
    · have hscaled : q m / total MODEL_NAMES_ORDER q ≤ q m :=
        (div_le_iff₀ hpos).mpr (le_mul_of_one_le_right (hnonneg.trans (hbox m).1) hsum)
      have hlow := (max_le_iff.mp (hbounds m).1).2
      linarith
    · obtain ⟨k, hnames⟩ := exists_third hne
      have hlow := (max_le_iff.mp (hbounds j).1).1
      have hparts := total_three hnames q
      have hk := (hbox k).2
      have hceil := c.ceiling
      rw [le_div_iff₀ hpos, hj, hshort] at hlow
      -- Either the floor is above zero, and scaled under itself, or the third weight exceeds one.
      have hzero : c.minWeight * r ≤ 0 := by linarith
      have hfloor : c.minWeight = 0 :=
        le_antisymm (nonpos_of_mul_nonpos_left hzero hr) hnonneg
      linarith
    · exact hsettled
  · rintro ⟨hfree, hunder⟩
    obtain ⟨hsum, hbox, hnear⟩ :=
      hclamped.lowered c.ordered hold.box hold.sum hnew hfloors hd hfree hunder
    exact within_of_total hsum hbox hnear

theorem within_applyStability_iff :
    Within c old (applyStability c old new) ↔ Settles c old new := by
  rw [Settles]
  split_ifs with hclose hraise
  · rw [applyStability, projectWeights, fill, if_pos hclose]
    exact within_close_iff hclose
  · rw [abs_of_pos hraise, not_lt] at hclose
    exact within_raised_iff hceiling hδ hold hnew hclose
  · rw [abs_of_nonpos (not_lt.mp hraise), not_lt, neg_sub] at hclose
    exact within_lowered_iff hδ hold hnew hclose

end Envelope

section Runs

variable {c : Config} {r : Reweighter}

def UpdateWithin (c : Config) (r : Reweighter) : Action → Prop
  | .update feedbacks => Within c r.weights (r.updateWeights c feedbacks).weights
  | .restart => True

/-- Changes may not be negative, and an update with feedback settles. -/
def UpdateSettles (c : Config) (r : Reweighter) : Action → Prop
  | .update feedbacks =>
    0 ≤ c.maxDelta ∧ (feedbacks ≠ [] → Settles c r.weights (blended c r.weights feedbacks))
  | .restart => True

/-- The weights are in the envelope, and what a new process would read are the same weights. -/
structure Reweighter.Kept (c : Config) (r : Reweighter) : Prop where
  inEnvelope : InEnvelope c r.weights
  stored : r.history.getLast?.getD uniform = r.weights

theorem total_target (f1 : Weights) : total MODEL_NAMES_ORDER (target f1) = 1 := by
  have htarget : total MODEL_NAMES_ORDER (target f1) = target f1 .randomForest +
      target f1 .xgboost + target f1 .lightgbm := total_three (.refl _) _
  rw [htarget]
  simp only [target]
  by_cases h : total MODEL_NAMES_ORDER f1 = 0
  · rw [if_pos h, if_pos h, if_pos h]
    norm_num
  · rw [if_neg h, if_neg h, if_neg h, ← add_div, ← add_div, ← total_three (.refl _) f1]
    exact div_self h

theorem total_blended (h : total MODEL_NAMES_ORDER r.weights = 1)
    (feedbacks : List LabelFeedback) :
    total MODEL_NAMES_ORDER (blended c r.weights feedbacks) = 1 := by
  have htarget := total_target fun model => (compute (1 / 2) feedbacks model).f1
  rw [total_three (.refl MODEL_NAMES_ORDER)] at h htarget
  rw [total_three (.refl MODEL_NAMES_ORDER)]
  simp only [blended, ema]
  linear_combination c.emaAlpha * htarget + (1 - c.emaAlpha) * h

theorem projectWeights_eq {w : Weights} (h : InEnvelope c w) : projectWeights c w = w := by
  have hbounded : bounded c w = w := by
    funext m
    rw [bounded, clip, max_eq_right (h.box m).1, min_eq_right (h.box m).2]
  rw [projectWeights, hbounded, fill_of_total_eq tolerance_pos h.sum]
  simp only [h.sum, div_one]

theorem within_refl (h : InEnvelope c r.weights) :
    Within c r.weights r.weights ↔ 0 ≤ c.maxDelta := by
  constructor
  · intro hwithin
    exact (abs_nonneg _).trans (hwithin.near .randomForest)
  · intro hδ
    refine ⟨h, fun m => ?_⟩
    rw [sub_self, abs_zero]
    exact hδ

theorem updateWithin_iff (hceiling : 1 ≤ 3 * c.maxWeight) (h : r.Kept c) (action : Action) :
    UpdateWithin c r action ↔ UpdateSettles c r action := by
  cases action with
  | restart => rfl
  | update feedbacks =>
    rw [UpdateWithin, UpdateSettles, Reweighter.updateWeights]
    by_cases hempty : feedbacks = []
    · rw [if_pos hempty, within_refl h.inEnvelope, and_iff_left fun hne => absurd hempty hne]
    rw [if_neg hempty]
    constructor
    · intro hwithin
      have hδ := (abs_nonneg _).trans (hwithin.near .randomForest)
      exact ⟨hδ, fun _ => (within_applyStability_iff hceiling hδ h.inEnvelope
        (total_blended h.inEnvelope.sum feedbacks)).mp hwithin⟩
    · rintro ⟨hδ, hsettles⟩
      exact (within_applyStability_iff hceiling hδ h.inEnvelope
        (total_blended h.inEnvelope.sum feedbacks)).mpr (hsettles hempty)

theorem Reweighter.Kept.perform (h : r.Kept c) {action : Action}
    (hwithin : UpdateWithin c r action) : (r.perform c action).Kept c := by
  cases action with
  | update feedbacks =>
    rw [UpdateWithin] at hwithin
    rw [Reweighter.perform]
    refine ⟨hwithin.toInEnvelope, ?_⟩
    rw [Reweighter.updateWeights]
    split_ifs
    · exact h.stored
    · rw [List.getLast?_concat, Option.getD_some]
  | restart =>
    have hsame : (r.history.getLast?.map (projectWeights c)).getD uniform = r.weights := by
      have hstored := h.stored
      cases hlast : r.history.getLast? with
      | none =>
        rw [hlast] at hstored
        exact hstored
      | some w =>
        rw [hlast, Option.getD_some] at hstored
        rw [Option.map_some, Option.getD_some, hstored, projectWeights_eq h.inEnvelope]
    rw [Reweighter.perform, Reweighter.restart, hsame]
    exact ⟨h.inEnvelope, h.stored⟩

theorem kept_init (hceiling : 1 ≤ 3 * c.maxWeight) : Reweighter.init.Kept c := by
  have hfloors : 3 * c.minWeight ≤ 1 := c.floors
  refine ⟨⟨?_, fun m => ⟨?_, ?_⟩⟩, rfl⟩
  · rw [total_three (.refl MODEL_NAMES_ORDER)]
    simp only [Reweighter.init, uniform]
    norm_num
  · simp only [Reweighter.init, uniform]
    linarith
  · simp only [Reweighter.init, uniform]
    linarith

end Runs

section Results

/-- All updates of a run keep to the envelope if and only if all of them settle. -/
theorem updates_within_iff (c : Config) (hceiling : 1 ≤ 3 * c.maxWeight) (actions : List Action) :
    LabelledRuns.Along (Reweighter.perform c) (UpdateWithin c) Reweighter.init actions ↔
      LabelledRuns.Along (Reweighter.perform c) (UpdateSettles c) Reweighter.init actions :=
  LabelledRuns.along_iff_along (kept_init hceiling) (fun _ _ hkept => hkept.perform)
    fun _ action hkept => updateWithin_iff hceiling hkept action

end Results

section Examples

def defaults : Config where
  minWeight := 1 / 10
  maxWeight := 3 / 5
  maxDelta := 1 / 10
  emaAlpha := 3 / 10
  nonneg := by decide +kernel
  ordered := by decide +kernel
  ceiling := by decide +kernel
  floors := by decide +kernel

/-- One confirmed case that only the first model recognised. -/
def oneSided : List LabelFeedback :=
  [⟨1, fun model => if model = .randomForest then some 90 else some 10⟩]

/-- What the other two lose is shared with the first, which already rose by `maxDelta`. -/
theorem oneSided_not_within : ¬ UpdateWithin defaults Reweighter.init (.update oneSided) := by
  intro hwithin
  exact absurd (hwithin.near .randomForest) (by decide +kernel)

theorem mem_modelNames (m : ModelName) : m ∈ MODEL_NAMES_ORDER.toFinset := by cases m <;> decide

instance : Fintype ModelName := ⟨MODEL_NAMES_ORDER.toFinset, mem_modelNames⟩

instance (c : Config) (old new : Weights) : Decidable (Settles c old new) := by
  unfold Settles
  infer_instance

instance (c : Config) (r : Reweighter) : ∀ action, Decidable (UpdateSettles c r action)
  | .update _ => inferInstanceAs (Decidable (_ ∧ (_ → _)))
  | .restart => isTrue trivial

/-- A case that two models recognised, a restart, and one that all of them did. -/
def settling : List Action :=
  [.update [⟨1, fun model => if model = .lightgbm then some 10 else some 90⟩], .restart,
    .update [⟨1, fun _ => some 90⟩]]

theorem updates_within_iff_settling :
    LabelledRuns.Along (Reweighter.perform defaults) (UpdateWithin defaults) Reweighter.init
        settling ∧
      (settling.foldl (Reweighter.perform defaults) Reweighter.init).weights .lightgbm = 79 / 300 :=
  ⟨(updates_within_iff defaults (by decide +kernel) settling).mpr (by decide +kernel),
    by decide +kernel⟩

end Examples

end EnsembleWeights
