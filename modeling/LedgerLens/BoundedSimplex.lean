import Mathlib.Algebra.BigOperators.Group.List.Basic
import Mathlib.Algebra.Order.Field.Rat
import Mathlib.Algebra.Order.Group.MinMax
import Mathlib.Tactic.FieldSimp
import Mathlib.Tactic.Linarith
import Mathlib.Tactic.Ring

/-!
# Filling a box up to a sum

Entries between a floor and a ceiling are moved to a given sum: round by round, what is missing or
in excess is shared evenly between the entries that can still move. Turned upside down, lowering is
raising.
-/
namespace BoundedSimplex

variable {ι : Type*} (names : List ι)

def total (w : ι → ℚ) : ℚ := (names.map w).sum

def clip (lo hi x : ℚ) : ℚ := min hi (max lo x)

/-- The entry can move towards the sum. -/
def Adjustable (lo hi d : ℚ) (w : ι → ℚ) (i : ι) : Prop := (0 < d ∧ w i < hi) ∨ (d < 0 ∧ lo < w i)

instance (lo hi d : ℚ) (w : ι → ℚ) (i : ι) : Decidable (Adjustable lo hi d w i) :=
  inferInstanceAs (Decidable (_ ∨ _))

def adjustable (lo hi d : ℚ) (w : ι → ℚ) : List ι :=
  names.filter fun i => Adjustable lo hi d w i

/-- Every entry that can move gets an even share. -/
def spread (lo hi d : ℚ) (w : ι → ℚ) : ι → ℚ := fun i =>
  if Adjustable lo hi d w i then clip lo hi (w i + d / (adjustable names lo hi d w).length) else w i

def fill (lo hi sum tolerance : ℚ) : ℕ → (ι → ℚ) → ι → ℚ
  | 0, w => w
  | rounds + 1, w =>
    if |sum - total names w| < tolerance then w
    else if adjustable names lo hi (sum - total names w) w = [] then w
    else fill lo hi sum tolerance rounds (spread names lo hi (sum - total names w) w)

section Mirror

variable {names} {lo hi d sum tolerance : ℚ} {w : ι → ℚ}

theorem clip_neg (x : ℚ) : clip (-hi) (-lo) (-x) = -max lo (min hi x) := by
  rw [clip, max_neg_neg, min_neg_neg]

theorem clip_eq (h : lo ≤ hi) (x : ℚ) : clip lo hi x = max lo (min hi x) := by
  rw [clip, max_min_distrib_left, max_eq_right h]

theorem total_neg : total names (-w) = -total names w := by
  rw [total, total]
  induction names with
  | nil => rfl
  | cons i names ih =>
    rw [List.map_cons, List.sum_cons, ih, List.map_cons, List.sum_cons, Pi.neg_apply]
    ring

theorem adjustable_neg_iff {i : ι} :
    Adjustable (-hi) (-lo) (-d) (-w) i ↔ Adjustable lo hi d w i := by
  simp only [Adjustable, Pi.neg_apply, neg_lt_neg_iff, Left.neg_pos_iff, Left.neg_neg_iff]
  exact or_comm

theorem adjustable_neg : adjustable names (-hi) (-lo) (-d) (-w) = adjustable names lo hi d w := by
  simp only [adjustable, adjustable_neg_iff]

theorem spread_neg (h : lo ≤ hi) :
    spread names (-hi) (-lo) (-d) (-w) = -spread names lo hi d w := by
  funext i
  simp only [spread, adjustable_neg_iff, adjustable_neg, Pi.neg_apply]
  split_ifs
  · rw [neg_div, ← neg_add, clip_neg, clip_eq h]
  · rfl

theorem fill_neg (h : lo ≤ hi) (rounds : ℕ) :
    fill names (-hi) (-lo) (-sum) tolerance rounds (-w) =
        -fill names lo hi sum tolerance rounds w := by
  induction rounds generalizing w with
  | zero => rfl
  | succ rounds ih =>
    have hd : -sum - total names (-w) = -(sum - total names w) := by
      rw [total_neg]
      ring
    rw [fill, fill, hd, abs_neg, adjustable_neg, spread_neg h, ih]
    split_ifs <;> rfl

end Mirror

section Raise

variable {names} {lo hi d s sum tolerance : ℚ} {w : ι → ℚ}

def InBox (lo hi : ℚ) (w : ι → ℚ) : Prop := ∀ i, lo ≤ w i ∧ w i ≤ hi

theorem total_mono {w' : ι → ℚ} (h : ∀ i, w i ≤ w' i) : total names w ≤ total names w' := by
  rw [total, total]
  induction names with
  | nil => exact le_rfl
  | cons i names ih =>
    rw [List.map_cons, List.sum_cons, List.map_cons, List.sum_cons]
    exact add_le_add (h i) ih

theorem total_add_ite (P : ι → Prop) [DecidablePred P] :
    total names (fun i => w i + if P i then s else 0) =
      total names w + (names.filter fun i => P i).length * s := by
  rw [total, total]
  induction names with
  | nil => simp
  | cons i names ih =>
    rw [List.map_cons, List.sum_cons, ih, List.map_cons, List.sum_cons, List.filter_cons]
    by_cases h : P i
    · rw [if_pos h, if_pos (decide_eq_true h), List.length_cons]
      push_cast
      ring
    · rw [if_neg h, if_neg (by simpa using h)]
      ring

theorem adjustable_iff (hd : 0 < d) {i : ι} : Adjustable lo hi d w i ↔ w i < hi := by
  rw [Adjustable, and_iff_right hd, or_iff_left fun h => absurd h.1 (not_lt.mpr hd.le)]

theorem spread_eq (hbox : InBox lo hi w) (hd : 0 < d) (i : ι) : spread names lo hi d w i =
    if w i < hi then min hi (w i + d / (adjustable names lo hi d w).length) else w i := by
  simp only [spread, adjustable_iff hd]
  split_ifs
  · have hshare : 0 ≤ d / ((adjustable names lo hi d w).length : ℚ) :=
      div_nonneg hd.le (Nat.cast_nonneg _)
    rw [clip, max_eq_right ((hbox i).1.trans (le_add_of_nonneg_right hshare))]
  · rfl

theorem le_spread (hbox : InBox lo hi w) (hd : 0 < d) (i : ι) : w i ≤ spread names lo hi d w i := by
  rw [spread_eq hbox hd]
  split_ifs with h
  · exact le_min h.le (le_add_of_nonneg_right (div_nonneg hd.le (Nat.cast_nonneg _)))
  · exact le_rfl

theorem inBox_spread (hbox : InBox lo hi w) (hd : 0 < d) :
    InBox lo hi (spread names lo hi d w) := by
  refine fun i => ⟨(hbox i).1.trans (le_spread hbox hd i), ?_⟩
  rw [spread_eq hbox hd]
  split_ifs
  · exact min_le_left _ _
  · exact (hbox i).2

theorem total_spread_le (hbox : InBox lo hi w) (hd : 0 < d)
    (hmove : adjustable names lo hi d w ≠ []) :
    total names (spread names lo hi d w) ≤ total names w + d := by
  have hlength : ((adjustable names lo hi d w).length : ℚ) ≠ 0 :=
    Nat.cast_ne_zero.mpr fun h => hmove (List.length_eq_zero_iff.mp h)
  calc total names (spread names lo hi d w)
      ≤ total names fun i => w i + if Adjustable lo hi d w i then
          d / (adjustable names lo hi d w).length else 0 := by
        refine total_mono fun i => ?_
        rw [spread_eq hbox hd]
        simp only [adjustable_iff hd]
        split_ifs
        · exact min_le_right _ _
        · rw [add_zero]
    _ = total names w + (adjustable names lo hi d w).length *
          (d / (adjustable names lo hi d w).length) := total_add_ite _
    _ = total names w + d := by rw [mul_div_cancel₀ _ hlength]

variable (names) in
theorem fill_raise (htolerance : 0 < tolerance) (hbox : InBox lo hi w)
    (hsum : total names w ≤ sum) (rounds : ℕ) :
    (∀ i, w i ≤ fill names lo hi sum tolerance rounds w i) ∧
      InBox lo hi (fill names lo hi sum tolerance rounds w) ∧
      total names (fill names lo hi sum tolerance rounds w) ≤ sum := by
  induction rounds generalizing w with
  | zero => exact ⟨fun _ => le_rfl, hbox, hsum⟩
  | succ rounds ih =>
    rw [fill]
    split_ifs with hclose hmove
    · exact ⟨fun _ => le_rfl, hbox, hsum⟩
    · exact ⟨fun _ => le_rfl, hbox, hsum⟩
    · have hd : 0 < sum - total names w := by
        rcases (sub_nonneg.mpr hsum).lt_or_eq with h | h
        · exact h
        · rw [← h, abs_zero] at hclose
          exact absurd htolerance hclose
      have htotal := total_spread_le hbox hd hmove
      obtain ⟨hle, hbox', hsum'⟩ := ih (inBox_spread hbox hd) (htotal.trans (by linarith))
      exact ⟨fun i => (le_spread hbox hd i).trans (hle i), hbox', hsum'⟩

theorem InBox.neg (h : InBox lo hi w) : InBox (-hi) (-lo) (-w) :=
  fun i => ⟨neg_le_neg (h i).2, neg_le_neg (h i).1⟩

variable (names) in
/-- Lowering never raises an entry and never passes the floor or the sum. -/
theorem fill_lower (hbounds : lo ≤ hi) (htolerance : 0 < tolerance) (hbox : InBox lo hi w)
    (hsum : sum ≤ total names w) (rounds : ℕ) :
    (∀ i, fill names lo hi sum tolerance rounds w i ≤ w i) ∧
      InBox lo hi (fill names lo hi sum tolerance rounds w) ∧
      sum ≤ total names (fill names lo hi sum tolerance rounds w) := by
  have hneg : total names (-w) ≤ -sum := by
    rw [total_neg]
    exact neg_le_neg hsum
  obtain ⟨hle, hinside, htotal⟩ := fill_raise names htolerance hbox.neg hneg rounds
  rw [fill_neg hbounds] at hle hinside htotal
  rw [total_neg] at htotal
  have hback := hinside.neg
  rw [neg_neg, neg_neg, neg_neg] at hback
  exact ⟨fun i => neg_le_neg_iff.mp (hle i), hback, neg_le_neg_iff.mp htotal⟩

theorem fill_succ (hd : tolerance ≤ sum - total names w) (htolerance : 0 < tolerance) {i : ι}
    (hi' : i ∈ names) (hlow : w i < hi) (rounds : ℕ) :
    fill names lo hi sum tolerance (rounds + 1) w =
      fill names lo hi sum tolerance rounds (spread names lo hi (sum - total names w) w) := by
  have hpos : 0 < sum - total names w := htolerance.trans_le hd
  have hmove : adjustable names lo hi (sum - total names w) w ≠ [] := by
    refine List.ne_nil_of_mem (a := i) (List.mem_filter.mpr ⟨hi', decide_eq_true ?_⟩)
    exact (adjustable_iff hpos).mpr hlow
  rw [fill, if_neg (not_lt.mpr (hd.trans (le_abs_self _))), if_neg hmove]

theorem lt_fill (hbox : InBox lo hi w) (hd : tolerance ≤ sum - total names w)
    (htolerance : 0 < tolerance) {i : ι} (hi' : i ∈ names) (hlow : w i < hi) (rounds : ℕ) :
    w i < fill names lo hi sum tolerance (rounds + 1) w i := by
  have hpos : 0 < sum - total names w := htolerance.trans_le hd
  have hmem : i ∈ adjustable names lo hi (sum - total names w) w :=
    List.mem_filter.mpr ⟨hi', decide_eq_true ((adjustable_iff hpos).mpr hlow)⟩
  have hlength : (0 : ℚ) < (adjustable names lo hi (sum - total names w) w).length :=
    Nat.cast_pos.mpr (List.length_pos_of_mem hmem)
  have hsum : total names (spread names lo hi (sum - total names w) w) ≤ sum := by
    have := total_spread_le hbox hpos (List.ne_nil_of_mem hmem)
    linarith
  rw [fill_succ hd htolerance hi' hlow]
  refine lt_of_lt_of_le ?_
    ((fill_raise names htolerance (inBox_spread hbox hpos) hsum rounds).1 i)
  rw [spread_eq hbox hpos, if_pos hlow]
  exact lt_min hlow (lt_add_of_pos_right _ (div_pos hpos hlength))

end Raise

section Three

variable {names} {j m k : ι} {lo hi d sum tolerance : ℚ} {w : ι → ℚ}

theorem total_three (h : names.Perm [j, m, k]) (w : ι → ℚ) : total names w = w j + w m + w k := by
  rw [total, (h.map w).sum_eq]
  simp only [List.map_cons, List.map_nil, List.sum_cons, List.sum_nil]
  ring

theorem length_adjustable_three (h : names.Perm [j, m, k]) (hd : 0 < d) :
    (adjustable names lo hi d w).length =
      (if w j < hi then 1 else 0) + (if w m < hi then 1 else 0) + (if w k < hi then 1 else 0) := by
  rw [adjustable, (h.filter _).length_eq]
  simp only [adjustable_iff hd, List.filter_cons, List.filter_nil, decide_eq_true_eq]
  split_ifs <;> rfl

/-- The share of the entry would lift it over the ceiling by this much. -/
def overshoot (names : List ι) (lo hi d : ℚ) (w : ι → ℚ) (i : ι) : ℚ :=
  w i + d / (adjustable names lo hi d w).length - hi

/-- The share of the entry would lower it under the floor by this much. -/
def undershoot (names : List ι) (lo hi d : ℚ) (w : ι → ℚ) (i : ι) : ℚ :=
  lo - (w i + d / (adjustable names lo hi d w).length)

theorem overshoot_neg (i : ι) :
    overshoot names (-hi) (-lo) (-d) (-w) i = undershoot names lo hi d w i := by
  rw [overshoot, undershoot, adjustable_neg, neg_div, Pi.neg_apply]
  ring

theorem fill_of_total_eq (htolerance : 0 < tolerance) (h : total names w = sum) (rounds : ℕ) :
    fill names lo hi sum tolerance rounds w = w := by
  cases rounds with
  | zero => rfl
  | succ rounds =>
    have hzero : |sum - total names w| < tolerance := by rwa [h, sub_self, abs_zero]
    rw [fill, if_pos hzero]

/-- With two entries at the ceiling the third takes all that is missing. -/
theorem total_fill_one (hnames : names.Perm [j, m, k]) (hbox : InBox lo hi w) (hj : w j = hi)
    (hm : w m = hi) (hroom : sum ≤ 3 * hi) (htolerance : 0 < tolerance)
    (hd : tolerance ≤ sum - total names w) (rounds : ℕ) :
    total names (fill names lo hi sum tolerance (rounds + 1) w) = sum := by
  have hpos : 0 < sum - total names w := htolerance.trans_le hd
  have htotal := total_three hnames w
  have hk : w k < hi := by linarith
  have hlength : (adjustable names lo hi (sum - total names w) w).length = 1 := by
    rw [length_adjustable_three hnames hpos, if_neg hj.not_lt, if_neg hm.not_lt, if_pos hk]
  have hspread : total names (spread names lo hi (sum - total names w) w) = sum := by
    rw [total_three hnames, spread_eq hbox hpos, spread_eq hbox hpos, spread_eq hbox hpos,
      if_neg hj.not_lt, if_neg hm.not_lt, if_pos hk, hlength, Nat.cast_one, div_one,
      min_eq_right (by linarith)]
    linarith
  rw [fill_succ hd htolerance (hnames.mem_iff.mpr (by simp)) hk,
    fill_of_total_eq htolerance hspread]
  exact hspread

theorem spread_two (hnames : names.Perm [j, m, k]) (hbox : InBox lo hi w) (hj : w j = hi)
    (hd : 0 < d) (hm : w m < hi) (hk : w k < hi) :
    (adjustable names lo hi d w).length = 2 ∧ spread names lo hi d w j = hi ∧
      spread names lo hi d w m = min hi (w m + d / 2) ∧
      spread names lo hi d w k = min hi (w k + d / 2) := by
  have hlength : (adjustable names lo hi d w).length = 2 := by
    rw [length_adjustable_three hnames hd, if_neg hj.not_lt, if_pos hm, if_pos hk]
  refine ⟨hlength, ?_, ?_, ?_⟩
  · rw [spread_eq hbox hd, if_neg hj.not_lt, hj]
  · rw [spread_eq hbox hd, if_pos hm, hlength, Nat.cast_ofNat]
  · rw [spread_eq hbox hd, if_pos hk, hlength, Nat.cast_ofNat]

/-- An entry that passes the ceiling leaves what it cannot take to the third. -/
theorem spread_over (hnames : names.Perm [j, m, k]) (hbox : InBox lo hi w) (hj : w j = hi)
    (hroom : sum ≤ 3 * hi) (hd : 0 < sum - total names w) (hm : w m < hi)
    (hover : 0 < overshoot names lo hi (sum - total names w) w m) :
    spread names lo hi (sum - total names w) w j = hi ∧
      spread names lo hi (sum - total names w) w m = hi ∧
      total names (spread names lo hi (sum - total names w) w) =
        sum - overshoot names lo hi (sum - total names w) w m := by
  have htotal := total_three hnames w
  have hk : w k < hi := by
    by_contra hk
    have hlength : (adjustable names lo hi (sum - total names w) w).length = 1 := by
      rw [length_adjustable_three hnames hd, if_neg hj.not_lt, if_pos hm, if_neg hk]
    have hk := le_antisymm (hbox k).2 (not_lt.mp hk)
    rw [overshoot, hlength, Nat.cast_one, div_one] at hover
    linarith
  obtain ⟨hlength, hj', hm', hk'⟩ := spread_two hnames hbox hj hd hm hk
  rw [overshoot, hlength, Nat.cast_ofNat] at hover ⊢
  rw [min_eq_left (by linarith)] at hm'
  rw [min_eq_right (by linarith)] at hk'
  refine ⟨hj', hm', ?_⟩
  rw [total_three hnames, hj', hm', hk']
  linarith

/-- With one entry at the ceiling the sum is met, unless a round stops just short of it. -/
theorem total_fill_three (hnames : names.Perm [j, m, k]) (hbox : InBox lo hi w) (hj : w j = hi)
    (hroom : sum ≤ 3 * hi) (htolerance : 0 < tolerance) (hd : tolerance ≤ sum - total names w)
    (hover : ∀ i, w i < hi → 0 < overshoot names lo hi (sum - total names w) w i →
      tolerance ≤ overshoot names lo hi (sum - total names w) w i) (rounds : ℕ) :
    total names (fill names lo hi sum tolerance (rounds + 2) w) = sum := by
  have hpos : 0 < sum - total names w := htolerance.trans_le hd
  have hnames' : names.Perm [j, k, m] := hnames.trans (.cons j (.swap k m []))
  rcases (hbox m).2.eq_or_lt with hm | hm
  · exact total_fill_one hnames hbox hj hm hroom htolerance hd (rounds + 1)
  rcases (hbox k).2.eq_or_lt with hk | hk
  · exact total_fill_one hnames' hbox hj hk hroom htolerance hd (rounds + 1)
  rw [fill_succ hd htolerance (hnames.mem_iff.mpr (by simp)) hm]
  have hbox' : InBox lo hi (spread names lo hi (sum - total names w) w) := inBox_spread hbox hpos
  by_cases hoverm : 0 < overshoot names lo hi (sum - total names w) w m
  · obtain ⟨hj', hm', htotal'⟩ := spread_over hnames hbox hj hroom hpos hm hoverm
    have hd' := hover m hm hoverm
    exact total_fill_one hnames hbox' hj' hm' hroom htolerance (by linarith) rounds
  by_cases hoverk : 0 < overshoot names lo hi (sum - total names w) w k
  · obtain ⟨hj', hk', htotal'⟩ := spread_over hnames' hbox hj hroom hpos hk hoverk
    have hd' := hover k hk hoverk
    exact total_fill_one hnames' hbox' hj' hk' hroom htolerance (by linarith) rounds
  obtain ⟨hlength, hj', hm', hk'⟩ := spread_two hnames hbox hj hpos hm hk
  rw [overshoot, hlength, Nat.cast_ofNat, not_lt] at hoverm hoverk
  rw [min_eq_right (by linarith)] at hm' hk'
  have hspread : total names (spread names lo hi (sum - total names w) w) = sum := by
    rw [total_three hnames, hj', hm', hk']
    linarith [total_three hnames w]
  rw [fill_of_total_eq htolerance hspread]
  exact hspread

theorem fill_short (hnames : names.Perm [j, m, k]) (hbox : InBox lo hi w) (hj : w j = hi)
    (hroom : sum ≤ 3 * hi) (htolerance : 0 < tolerance) (hd : tolerance ≤ sum - total names w)
    (hm : w m < hi) (hover : 0 < overshoot names lo hi (sum - total names w) w m)
    (hshort : overshoot names lo hi (sum - total names w) w m < tolerance) (rounds : ℕ) :
    fill names lo hi sum tolerance (rounds + 2) w j = hi ∧
      fill names lo hi sum tolerance (rounds + 2) w m = hi ∧
      total names (fill names lo hi sum tolerance (rounds + 2) w) =
        sum - overshoot names lo hi (sum - total names w) w m := by
  obtain ⟨hj', hm', htotal'⟩ :=
    spread_over hnames hbox hj hroom (htolerance.trans_le hd) hm hover
  have hclose : |sum - total names (spread names lo hi (sum - total names w) w)| < tolerance := by
    rwa [htotal', sub_sub_cancel, abs_of_pos hover]
  rw [fill_succ hd htolerance (hnames.mem_iff.mpr (by simp)) hm, fill, if_pos hclose]
  exact ⟨hj', hm', htotal'⟩

end Three

end BoundedSimplex
