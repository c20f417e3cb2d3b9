import LedgerLens.ScoreRangeCircuit

/-!
# Honest assignments of the score range circuit

The circuit adds table points of BN254 with the chord law of another field. One addition
agrees with the final check in every field; two and more agree with the group only by
accident, and for the blinding zero never.
-/
namespace ScoreRangeCompleteness

open Bn254 CircuitConstants JacobianCoordinates ScoreRangeCircuit

/-- The honest assignment exists and is accepted, whenever the commitment has coordinates. -/
def Complete (lib : Circomlib) (mode : DivisionByZero) (score threshold : ℕ) (blinding : Signal) :
    Prop :=
  ∀ x y h, score • generator + blinding.val • hBase = .some x y h →
    ∃ a, Computes lib mode score blinding x.val y.val threshold a ∧ Satisfies lib a

/-- Sum of two points as the circuit's assignments compute it. -/
def chord (p q : Signal × Signal) : Signal × Signal :=
  ((finalAddition p q).x3, (finalAddition p q).y3)

/-- Equal abscissas only for equal points: the slope constraint is satisfiable. -/
def Compatible (p q : Signal × Signal) : Prop := q.1 = p.1 → q.2 = p.2

theorem slope_holds {p q : Signal × Signal} (h : Compatible p q) :
    (q.2 - p.2) / (q.1 - p.1) * (q.1 - p.1) = q.2 - p.2 := by
  by_cases hx : q.1 = p.1
  · rw [h hx, sub_self, zero_div, zero_mul]
  · exact div_mul_cancel₀ _ (sub_ne_zero.mpr hx)

theorem slope_holds_iff {p q : Signal × Signal} :
    (q.2 - p.2) / (q.1 - p.1) * (q.1 - p.1) = q.2 - p.2 ↔ Compatible p q := by
  constructor
  · intro h hx
    rw [hx, sub_self, mul_zero] at h
    exact sub_eq_zero.mp h.symm
  · exact slope_holds

theorem condAdd_satisfied_iff {p q : Signal × Signal} {bit : Signal}
    (hbit : bit * (bit - 1) = 0) : (condAdd p q bit).Satisfied ↔ Compatible p q := by
  constructor
  · intro h
    exact slope_holds_iff.mp h.slope
  · intro h
    exact ⟨hbit, slope_holds h, rfl, rfl, rfl, rfl⟩

theorem finalAddition_satisfied_iff {p q : Signal × Signal} :
    (finalAddition p q).Satisfied ↔ Compatible p q := by
  constructor
  · intro h
    exact slope_holds_iff.mp h.slope
  · intro h
    exact ⟨slope_holds h, rfl, rfl⟩

theorem condAdd_zero (p q : Signal × Signal) :
    ((condAdd p q 0).x3, (condAdd p q 0).y3) = p := by
  simp [condAdd]

theorem condAdd_one (p q : Signal × Signal) :
    ((condAdd p q 1).x3, (condAdd p q 1).y3) = chord p q := by
  simp [condAdd, chord, finalAddition]

theorem chord_comm {p q : Signal × Signal} (h : Compatible p q) : chord p q = chord q p := by
  have hslope : (p.2 - q.2) / (p.1 - q.1) = (q.2 - p.2) / (q.1 - p.1) := by
    rw [← neg_sub q.2, ← neg_sub q.1, neg_div_neg_eq]
  have hline := slope_holds h
  apply Prod.ext
  · simp only [chord, finalAddition, hslope]
    ring
  · simp only [chord, finalAddition, hslope]
    linear_combination -hline

section Accumulate

variable (table : ℕ → Signal × Signal) {bits bits' : ℕ → Signal} (start : Signal × Signal)

theorem partialSum_congr {n : ℕ} (h : ∀ i < n, bits i = bits' i) :
    ∀ i ≤ n, partialSum table bits start i = partialSum table bits' start i := by
  intro i hi
  induction i with
  | zero => rfl
  | succ i ih => rw [partialSum, partialSum, ih (by omega), h i (by omega)]

theorem partialSum_skip {n : ℕ} (h : ∀ i < n, bits i = 0) :
    ∀ i ≤ n, partialSum table bits start i = start := by
  intro i hi
  induction i with
  | zero => rfl
  | succ i ih =>
    rw [partialSum, ih (by omega), h i (by omega)]
    exact condAdd_zero _ _

theorem partialSum_single {n k : ℕ} (h : ∀ i < n, bits i = if i = k then 1 else 0) :
    ∀ i ≤ n, partialSum table bits start i = if i ≤ k then start else chord start (table k) := by
  intro i hi
  induction i with
  | zero => rw [if_pos (Nat.zero_le k), partialSum]
  | succ i ih =>
    rw [partialSum, ih (by omega), h i (by omega)]
    rcases lt_trichotomy i k with hlt | rfl | hgt
    · rw [if_pos hlt.le, if_neg hlt.ne, if_pos (by omega : i + 1 ≤ k)]
      exact condAdd_zero _ _
    · rw [if_pos le_rfl, if_pos rfl, if_neg (by omega)]
      exact condAdd_one _ _
    · rw [if_neg (by omega), if_neg hgt.ne', if_neg (by omega)]
      exact condAdd_zero _ _

theorem accumulate_satisfied_iff {n : ℕ} (h : ∀ i < n, bits i * (bits i - 1) = 0) :
    (accumulate table bits start).Satisfied n bits ↔
      ∀ i < n, Compatible (partialSum table bits start i) (table i) := by
  constructor
  · intro hs i hi
    exact (condAdd_satisfied_iff (h i hi)).mp (hs.add_satisfied i hi)
  · intro hc
    exact ⟨fun i hi => (condAdd_satisfied_iff (h i hi)).mpr (hc i hi), fun _ _ => rfl,
      fun _ _ => rfl, fun _ _ => rfl, fun _ _ => rfl, fun _ _ => rfl⟩

end Accumulate

def digits (v i : ℕ) : Signal := (v.testBit i).toNat

theorem digits_boolean (v i : ℕ) : digits v i * (digits v i - 1) = 0 := by
  unfold digits
  cases v.testBit i <;> simp

def scoreSum (score : ℕ) : ℕ → Signal × Signal := partialSum gTable (digits score) (gTable 1)

def blindingSum (score : ℕ) (blinding : Signal) : ℕ → Signal × Signal :=
  partialSum hTable (digits blinding.val) (scoreSum score 7)

theorem val_lt_pow (b : Signal) : b.val < 2 ^ 254 := (ZMod.val_lt b).trans (by norm_num)

theorem score_val {score : ℕ} (hs : score ≤ 100) : (score : Signal).val = score :=
  ZMod.val_cast_of_lt (lt_of_le_of_lt hs (by norm_num))

theorem scoreBits_eq (lib : Circomlib) {score : ℕ} (hs : score ≤ 100) :
    ∀ i < 7, lib.num2BitsOut 7 score i = digits score i := by
  intro i hi
  rw [lib.num2BitsOut_eq _ _ _ hi, score_val hs, digits]

theorem blindingBits_eq (lib : Circomlib) (blinding : Signal) :
    ∀ i < 254, lib.num2BitsOut 254 blinding i = digits blinding.val i :=
  lib.num2BitsOut_eq 254 blinding

/-- A loop over the digits of `v` is satisfied where no slope is undefined. -/
theorem accumulate_digits_iff (table : ℕ → Signal × Signal) (start : Signal × Signal) {n v : ℕ}
    {bits : ℕ → Signal} (h : ∀ i < n, bits i = digits v i) :
    (accumulate table bits start).Satisfied n bits ↔
      ∀ i < n, Compatible (partialSum table (digits v) start i) (table i) := by
  have hboolean : ∀ i < n, bits i * (bits i - 1) = 0 := by
    intro i hi
    rw [h i hi, digits_boolean]
  rw [accumulate_satisfied_iff table start hboolean]
  constructor
  · intro hc i hi
    rw [← partialSum_congr table start h i hi.le]
    exact hc i hi
  · intro hc i hi
    rw [partialSum_congr table start h i hi.le]
    exact hc i hi

theorem witness_blindingAcc (lib : Circomlib) {score : ℕ} (hs : score ≤ 100)
    (blinding commitX commitY threshold : Signal) :
    (witness lib score blinding commitX commitY threshold).blindingAcc =
      accumulate hTable (lib.num2BitsOut 254 blinding) (scoreSum score 7) := by
  have hsum : partialSum gTable (lib.num2BitsOut 7 score) (gTable 1) 7 = scoreSum score 7 :=
    partialSum_congr gTable (gTable 1) (scoreBits_eq lib hs) 7 le_rfl
  simp only [witness, accumulate, hsum]

theorem witness_geq (lib : Circomlib) {score threshold : ℕ} (hs : score ≤ 100)
    (ht : threshold ≤ score) : lib.greaterEqThanOut 8 score threshold = 1 ∧
      lib.greaterEqThan 8 score threshold (lib.greaterEqThanOut 8 score threshold) := by
  have hval := score_val hs
  have htval := score_val (ht.trans hs)
  have hout := lib.greaterEqThanOut_eq 8 (by norm_num) score threshold (by omega) (by omega)
  constructor
  · rw [hout, hval, htval, if_pos ht]
  · exact (lib.greaterEqThan_iff 8 (by norm_num) _ _ _ (by omega) (by omega)).mpr hout

/-- What acceptance of the honest assignment asks of its sums. -/
theorem witness_satisfies_iff (lib : Circomlib) {score threshold : ℕ} (hs : score ≤ 100)
    (ht : threshold ≤ score) (blinding commitX commitY : Signal) :
    Satisfies lib (witness lib score blinding commitX commitY threshold) ↔
      (∀ i < 7, Compatible (scoreSum score i) (gTable i)) ∧
      (∀ i < 254, Compatible (blindingSum score blinding i) (hTable i)) ∧
      Compatible (commitX, commitY) (gTable 1) ∧
      chord (commitX, commitY) (gTable 1) = blindingSum score blinding 254 := by
  have hscore := accumulate_digits_iff gTable (gTable 1) (scoreBits_eq lib hs)
  have hblinding := accumulate_digits_iff hTable (scoreSum score 7) (blindingBits_eq lib blinding)
  have hacc := witness_blindingAcc lib hs blinding commitX commitY threshold
  have hlast : partialSum hTable (lib.num2BitsOut 254 blinding) (scoreSum score 7) 254 =
      blindingSum score blinding 254 :=
    partialSum_congr hTable (scoreSum score 7) (blindingBits_eq lib blinding) 254 le_rfl
  rw [← hlast]
  constructor
  · intro h
    have hloop := h.blinding_loop
    have hx := h.final_x
    have hy := h.final_y
    rw [hacc] at hloop hx hy
    exact ⟨hscore.mp h.score_loop, hblinding.mp hloop,
      finalAddition_satisfied_iff.mp h.final_add, Prod.ext hx hy⟩
  · rintro ⟨hc, hb, hf, hend⟩
    exact {
      scoreBits := num2Bits_testBit lib (by omega) (scoreBits_eq lib hs)
      blindingBits := by
        have hbits := num2Bits_testBit lib (val_lt_pow blinding) (blindingBits_eq lib blinding)
        rwa [ZMod.natCast_zmod_val] at hbits
      score_start := ⟨rfl, rfl⟩
      score_loop := hscore.mpr hc
      blinding_start := ⟨rfl, rfl⟩
      blinding_loop := by
        rw [hacc]
        exact hblinding.mpr hb
      final_inputs := ⟨rfl, rfl, rfl, rfl⟩
      final_add := finalAddition_satisfied_iff.mpr hf
      final_x := by
        rw [hacc]
        exact congrArg Prod.fst hend
      final_y := by
        rw [hacc]
        exact congrArg Prod.snd hend
      geq := (witness_geq lib hs ht).2
      geq_one := (witness_geq lib hs ht).1 }

/-- The point `(x / z², y / z³)`. -/
def toPair (p : Triple Signal) : Signal × Signal := (p.x / p.z ^ 2, p.y / p.z ^ 3)

/-- The circuit's chord, also off the curve and with slope zero for equal abscissas. -/
def chordTriple (p : Triple Signal) (q : Signal × Signal) : Triple Signal :=
  let h := q.1 * p.z ^ 2 - p.x
  let r := q.2 * p.z ^ 3 - p.y
  if h = 0 then ⟨-p.x - q.1 * p.z ^ 2, -p.y, p.z⟩
  else
    let x := r ^ 2 - (p.x + q.1 * p.z ^ 2) * h ^ 2
    ⟨x, r * (p.x * h ^ 2 - x) - p.y * h ^ 3, p.z * h⟩

theorem chordTriple_z_ne_zero {p : Triple Signal} (hz : p.z ≠ 0) (q : Signal × Signal) :
    (chordTriple p q).z ≠ 0 := by
  simp only [chordTriple]
  split_ifs with h
  · exact hz
  · exact mul_ne_zero hz h

theorem chord_toPair {p : Triple Signal} (hz : p.z ≠ 0) (q : Signal × Signal) :
    chord (toPair p) q = toPair (chordTriple p q) := by
  have hdx : q.1 - p.x / p.z ^ 2 = (q.1 * p.z ^ 2 - p.x) / p.z ^ 2 := by field_simp
  have hdy : q.2 - p.y / p.z ^ 3 = (q.2 * p.z ^ 3 - p.y) / p.z ^ 3 := by field_simp
  simp only [chord, finalAddition, toPair, chordTriple, hdx, hdy]
  generalize q.1 * p.z ^ 2 - p.x = d
  generalize q.2 * p.z ^ 3 - p.y = r
  split_ifs with h
  · rw [h, zero_div, div_zero]
    apply Prod.ext
    · field_simp
      ring
    · field_simp
      ring
  · have hslope : r / p.z ^ 3 / (d / p.z ^ 2) = r / (p.z * d) := by field_simp
    rw [hslope]
    apply Prod.ext
    · field_simp
      ring
    · field_simp
      ring

def tables : List (ℕ × ℕ) := gPow2 ++ hPow2

def pointOf (e : ℕ × ℕ) : Signal × Signal := (e.1, e.2)

def startTriple : Triple Signal := .affine (gTable 1).1 (gTable 1).2

/-- After adding entry `e` to the start, entry `f` has another abscissa. -/
def Avoids (e f : ℕ × ℕ) : Prop :=
  let t := chordTriple startTriple (pointOf e)
  (f.1 : Signal) * t.z ^ 2 ≠ t.x

/-- The same comparison with the sum computed once and integers for the signals. -/
def avoidsBelow : List (ℕ × ℕ) → Bool
  | [] => true
  | e :: rest =>
    let t := chordTriple startTriple (pointOf e)
    let x := t.x.val
    let z2 := (t.z ^ 2).val
    rest.all (fun f => (f.1 * z2) % curveOrder != x) && avoidsBelow rest

theorem avoidsBelow_pairwise (l : List (ℕ × ℕ)) (h : avoidsBelow l = true) :
    l.Pairwise Avoids := by
  induction l with
  | nil => exact .nil
  | cons e rest ih =>
    simp only [avoidsBelow, Bool.and_eq_true, List.all_eq_true, bne_iff_ne] at h
    refine .cons (fun f hf heq => h.1 f hf ?_) (ih h.2)
    have hval := congrArg ZMod.val heq
    rwa [ZMod.val_mul, ZMod.val_natCast, Nat.mod_mul_mod] at hval

theorem tables_avoid : tables.Pairwise Avoids :=
  avoidsBelow_pairwise tables (by decide +kernel)

theorem start_clear : ∀ e ∈ tables, (e.1 : Signal) = (gTable 1).1 → pointOf e = gTable 1 := by
  decide +kernel

theorem tables_reduced : ∀ e ∈ tables, e.1 < fieldModulus ∧ e.2 < fieldModulus := by
  decide +kernel

theorem toPair_start : toPair startTriple = gTable 1 := by
  simp [toPair, startTriple, Triple.affine]

theorem chord_avoids {e f : ℕ × ℕ} (h : Avoids e f) :
    (pointOf f).1 ≠ (chord (gTable 1) (pointOf e)).1 := by
  have hz : startTriple.z ≠ 0 := one_ne_zero
  rw [← toPair_start, chord_toPair hz]
  intro heq
  have hz' := pow_ne_zero 2 (chordTriple_z_ne_zero hz (pointOf e))
  exact h ((eq_div_iff hz').mp heq)

theorem length_tables : tables.length = 261 := by
  rw [tables, List.length_append, length_gPow2, length_hPow2]

theorem tables_score {i : ℕ} (hi : i < 7) (h : i < tables.length) :
    tables[i] = (getGPow2X i, getGPow2Y i) := by
  have hlt : i < gPow2.length := length_gPow2 ▸ hi
  simp only [tables, List.getElem_append_left hlt]
  exact zip_getElem hlt

theorem tables_blinding {i : ℕ} (hi : i < 254) (h : 7 + i < tables.length) :
    tables[7 + i] = (getHPow2X i, getHPow2Y i) := by
  have hlt : i < hPow2.length := length_hPow2 ▸ hi
  have hle : gPow2.length ≤ 7 + i := by rw [length_gPow2]; omega
  have hsub : 7 + i - gPow2.length = i := by rw [length_gPow2]; omega
  simp only [tables, List.getElem_append_right hle, hsub]
  exact zip_getElem hlt

theorem compatible_start {i : ℕ} (hi : i < tables.length) :
    Compatible (gTable 1) (pointOf tables[i]) := by
  intro heq
  rw [start_clear _ (List.getElem_mem hi) heq]

theorem clear_after {i j : ℕ} (hij : i < j) (hi : i < tables.length) (hj : j < tables.length) :
    (pointOf tables[j]).1 ≠ (chord (gTable 1) (pointOf tables[i])).1 :=
  chord_avoids (List.pairwise_iff_getElem.mp tables_avoid i j hi hj hij)

/-- A run through the tables that adds at most entry `k` never meets a bad slope. -/
theorem compatible_single {i k : ℕ} (hi : i < tables.length) (hk : k < tables.length) :
    Compatible (if i ≤ k then gTable 1 else chord (gTable 1) (pointOf tables[k]))
      (pointOf tables[i]) := by
  split_ifs with h
  · exact compatible_start hi
  · exact fun heq => absurd heq (clear_after (not_le.mp h) hk hi)

theorem commit_eq {e : ℕ × ℕ} (he : e ∈ tables) {hc : OnCurve e} {x y : BaseField}
    {h : curve.Nonsingular x y} (heq : tablePoint e hc = .some x y h) :
    ((x.val : Signal), (y.val : Signal)) = pointOf e := by
  obtain ⟨hx, hy⟩ := WeierstrassCurve.Affine.Point.some.inj heq
  have hlt := tables_reduced e he
  rw [← hx, ← hy, ZMod.val_cast_of_lt hlt.1, ZMod.val_cast_of_lt hlt.2, pointOf]

theorem digits_zero (i : ℕ) : digits 0 i = 0 := by simp [digits]

theorem digits_pow_two (k i : ℕ) : digits (2 ^ k) i = if i = k then 1 else 0 := by
  rw [digits, Nat.testBit_two_pow]
  by_cases h : i = k
  · simp [h]
  · simp [h, Ne.symm h]

/-- The sums of a run that adds entry `k` alone, and the commitment that entry is. -/
theorem single_satisfies (lib : Circomlib) {score threshold k : ℕ} (hs : score ≤ 100)
    (ht : threshold ≤ score) (blinding : Signal) (hk : k < tables.length)
    (hscore : ∀ i ≤ 7, scoreSum score i =
      if i ≤ k then gTable 1 else chord (gTable 1) (pointOf tables[k]))
    (hblinding : ∀ i ≤ 254, blindingSum score blinding i =
      if 7 + i ≤ k then gTable 1 else chord (gTable 1) (pointOf tables[k])) :
    Satisfies lib (witness lib score blinding (pointOf tables[k]).1 (pointOf tables[k]).2
      threshold) := by
  have hlen := length_tables
  have hback : Compatible (pointOf tables[k]) (gTable 1) :=
    fun heq => (congrArg Prod.snd (start_clear _ (List.getElem_mem hk) heq.symm)).symm
  refine (witness_satisfies_iff lib hs ht blinding _ _).mpr ⟨?_, ?_, hback, ?_⟩
  · intro i hi
    rw [hscore i hi.le]
    have hentry := tables_score hi (by omega)
    have hc := compatible_single (i := i) (by omega) hk
    rwa [hentry] at hc
  · intro i hi
    rw [hblinding i hi.le]
    have hentry := tables_blinding hi (by omega)
    have hc := compatible_single (i := 7 + i) (by omega) hk
    rwa [hentry] at hc
  · rw [hblinding 254 le_rfl, if_neg (by omega)]
    exact chord_comm hback

/-- One addend in all: the accumulator and the final check add the same two points. -/
theorem complete_score_digit (lib : Circomlib) {k threshold : ℕ} (hk : k < 7)
    (ht : threshold ≤ 2 ^ k) : Complete lib .zero (2 ^ k) threshold 0 := by
  intro x y h heq
  have hs : 2 ^ k ≤ 100 := by
    have := Nat.pow_le_pow_right (by omega : 0 < 2) (by omega : k ≤ 6)
    omega
  have hlen : k < tables.length := by rw [length_tables]; omega
  have hentry := tables_score hk hlen
  obtain ⟨hc, htable⟩ := gPow2_eq k hk
  rw [ZMod.val_zero, zero_nsmul, add_zero, htable] at heq
  have hcommit := commit_eq (hentry ▸ List.getElem_mem hlen) heq
  rw [← hentry] at hcommit
  have hscore (i : ℕ) (hi : i ≤ 7) : scoreSum (2 ^ k) i =
      if i ≤ k then gTable 1 else chord (gTable 1) (pointOf tables[k]) := by
    rw [hentry]
    exact partialSum_single gTable (gTable 1) (fun i _ => digits_pow_two k i) i hi
  have hsat := single_satisfies lib hs ht 0 hlen hscore fun i hi => by
    rw [if_neg (by omega), blindingSum, ZMod.val_zero,
      partialSum_skip _ _ (fun i _ => digits_zero i) i hi, hscore 7 le_rfl, if_neg (by omega)]
  rw [← hcommit] at hsat
  exact ⟨_, ⟨rfl, nofun⟩, hsat⟩

theorem complete_blinding_digit (lib : Circomlib) {k : ℕ} (hk : k < 254) {blinding : Signal}
    (hb : blinding.val = 2 ^ k) : Complete lib .zero 0 0 blinding := by
  intro x y h heq
  have hlen : 7 + k < tables.length := by rw [length_tables]; omega
  have hentry := tables_blinding hk hlen
  obtain ⟨hc, htable⟩ := hPow2_eq k hk
  rw [hb, zero_nsmul, zero_add, htable] at heq
  have hcommit := commit_eq (hentry ▸ List.getElem_mem hlen) heq
  rw [← hentry] at hcommit
  have hscore (i : ℕ) (hi : i ≤ 7) : scoreSum 0 i = gTable 1 :=
    partialSum_skip _ _ (fun i _ => digits_zero i) i hi
  have hsat := single_satisfies lib (by omega : 0 ≤ 100) le_rfl blinding hlen
    (fun i hi => by rw [hscore i hi, if_pos (by omega)]) fun i hi => by
      rw [blindingSum, hb, hscore 7 le_rfl,
        partialSum_single hTable (gTable 1) (fun i _ => digits_pow_two k i) i hi, hentry]
      by_cases hik : i ≤ k
      · rw [if_pos hik, if_pos (by omega)]
      · rw [if_neg hik, if_neg (by omega)]
        rfl
  rw [← hcommit] at hsat
  exact ⟨_, ⟨rfl, nofun⟩, hsat⟩

/-- The accumulated score without divisions. -/
def scoreTriple (score n : ℕ) : Triple Signal :=
  (List.range n).foldl (fun p i => if score.testBit i then chordTriple p (gTable i) else p)
    startTriple

theorem scoreSum_eq (score n : ℕ) :
    scoreSum score n = toPair (scoreTriple score n) ∧ (scoreTriple score n).z ≠ 0 := by
  induction n with
  | zero => exact ⟨toPair_start.symm, one_ne_zero⟩
  | succ n ih =>
    have hstep : scoreSum score (n + 1) =
        if score.testBit n then chord (scoreSum score n) (gTable n) else scoreSum score n := by
      rw [scoreSum, partialSum, ← scoreSum]
      cases hbit : score.testBit n with
      | false => rw [digits, hbit, Bool.toNat_false, Nat.cast_zero, condAdd_zero]; rfl
      | true => rw [digits, hbit, Bool.toNat_true, Nat.cast_one, condAdd_one]; rfl
    rw [hstep, scoreTriple, List.range_succ, List.foldl_concat, ← scoreTriple]
    split_ifs
    · rw [ih.1]
      exact ⟨chord_toPair ih.2 _, chordTriple_z_ne_zero ih.2 _⟩
    · exact ih

def scoreDigits (score : ℕ) : List Bool := (List.range 7).reverse.map score.testBit

/-- Coordinates of `score * G` in the base field, as the public inputs carry them. -/
def commitment (score : ℕ) : Signal × Signal :=
  let p := (Triple.affine 1 2 : Triple BaseField).mulBits (scoreDigits score)
  let u := p.z⁻¹
  ((p.x * u ^ 2).val, (p.y * u ^ 3).val)

/-- The final check fails on the commitment of the score. -/
def Mismatch (score : ℕ) : Prop :=
  let c := commitment score
  let f := chordTriple (.affine c.1 c.2) (gTable 1)
  let a := scoreTriple score 7
  f.x * a.z ^ 2 ≠ a.x * f.z ^ 2

instance (score : ℕ) : Decidable (Mismatch score) := inferInstanceAs (Decidable (_ ≠ _))

theorem mismatch_of_digits : ∀ score ∈ List.range 101,
    score = 0 ∨ (∃ k ∈ List.range 7, score = 2 ^ k) ∨ Mismatch score := by
  -- in parts, each of which is evaluated alone
  have hlow : ∀ score ∈ List.range 40,
      score = 0 ∨ (∃ k ∈ List.range 7, score = 2 ^ k) ∨ Mismatch score := by decide +kernel
  have hmiddle : ∀ i ∈ List.range 35,
      (∃ k ∈ List.range 7, 40 + i = 2 ^ k) ∨ Mismatch (40 + i) := by decide +kernel
  have hhigh : ∀ i ∈ List.range 26, Mismatch (75 + i) := by decide +kernel
  intro score hscore
  rw [List.mem_range] at hscore
  by_cases h40 : score < 40
  · exact hlow score (List.mem_range.mpr h40)
  · obtain ⟨i, rfl⟩ := Nat.exists_eq_add_of_le (not_lt.mp h40)
    by_cases h35 : i < 35
    · exact .inr (hmiddle i (List.mem_range.mpr h35))
    · obtain ⟨j, rfl⟩ := Nat.exists_eq_add_of_le (not_lt.mp h35)
      rw [← Nat.add_assoc]
      exact .inr (.inr (hhigh j (List.mem_range.mpr (by omega))))

theorem scoreDigits_value : ∀ score ≤ 100, bitsValue (scoreDigits score) = score := by decide

theorem commitment_eq {score : ℕ} (hs : score ≤ 100) {x y : BaseField}
    {h : curve.Nonsingular x y} (heq : score • generator = .some x y h) :
    commitment score = ((x.val : Signal), (y.val : Signal)) := by
  have hrep := mulBits_represents two_ne_zero_base (represents_affine
    (nonsingular_of_equation (x := 1) (y := 2) (by decide +kernel))) (scoreDigits score)
  rw [scoreDigits_value score hs,
    show WeierstrassCurve.Affine.Point.some 1 2 _ = generator from rfl, heq] at hrep
  cases hrep with
  | finite _ hz hx hy =>
    simp only [commitment, hx, hy]
    congr 2
    · field_simp
    · field_simp

theorem mismatch_not_satisfied (lib : Circomlib) {score threshold : ℕ} (hs : score ≤ 100)
    (ht : threshold ≤ score) (hm : Mismatch score) :
    ¬ Satisfies lib (witness lib score 0 (commitment score).1 (commitment score).2 threshold) := by
  intro hsat
  obtain ⟨-, -, -, hend⟩ := (witness_satisfies_iff lib hs ht 0 _ _).mp hsat
  have hone : (Triple.affine (commitment score).1 (commitment score).2).z ≠ 0 := one_ne_zero
  have hc : toPair (.affine (commitment score).1 (commitment score).2) =
      ((commitment score).1, (commitment score).2) := by simp [toPair, Triple.affine]
  obtain ⟨hsum, hz⟩ := scoreSum_eq score 7
  rw [blindingSum, ZMod.val_zero, partialSum_skip _ _ (fun i _ => digits_zero i) 254 le_rfl,
    hsum, ← hc, chord_toPair hone] at hend
  have hz' := chordTriple_z_ne_zero hone (gTable 1)
  exact hm ((div_eq_div_iff (pow_ne_zero 2 hz') (pow_ne_zero 2 hz)).mp (congrArg Prod.fst hend))

def AtMostOneAddend (score blinding : ℕ) : Prop :=
  (blinding = 0 ∧ (score = 0 ∨ ∃ k, score = 2 ^ k)) ∨ (score = 0 ∧ ∃ k, blinding = 2 ^ k)

theorem nsmul_generator_finite {score : ℕ} (h0 : score ≠ 0) (hs : score ≤ 100) :
    ∃ x y h, score • generator = .some x y h := by
  cases hP : score • generator with
  | zero =>
    have hdvd := addOrderOf_dvd_of_nsmul_eq_zero hP
    rw [addOrderOf_generator] at hdvd
    exact absurd hdvd (Nat.not_dvd_of_pos_of_lt (by omega) (lt_of_le_of_lt hs (by norm_num)))
  | some x y h => exact ⟨x, y, h, rfl⟩

theorem even_divides_by_zero (lib : Circomlib) {score threshold : ℕ} (hs : score ≤ 100)
    (heven : score.testBit 0 = false) (blinding commitX commitY : Signal) :
    ¬ (witness lib score blinding commitX commitY threshold).NoZeroDivision := by
  have hbit : ∀ i < 1, lib.num2BitsOut 7 score i = 0 := by
    intro i hi
    obtain rfl : i = 0 := by omega
    rw [scoreBits_eq lib hs 0 (by omega), digits, heven, Bool.toNat_false, Nat.cast_zero]
  intro h
  apply h.1 1 (by omega)
  change (gTable 1).1 - (partialSum gTable (lib.num2BitsOut 7 score) (gTable 1) 1).1 = 0
  rw [partialSum_skip gTable (gTable 1) hbit 1 le_rfl, sub_self]

/-- The only score whose additions never divide by zero adds the first entry. -/
theorem one_noZeroDivision (lib : Circomlib) (threshold : Signal) :
    (witness lib (1 : ℕ) 0 (gTable 0).1 (gTable 0).2 threshold).NoZeroDivision := by
  have hlen := length_tables
  have hentry := tables_score (i := 0) (by omega) (by omega)
  have hsb (i : ℕ) (hi : i < 7) :
      lib.num2BitsOut 7 (1 : ℕ) i = if i = 0 then 1 else 0 := by
    rw [scoreBits_eq lib (by omega) i hi]
    exact digits_pow_two 0 i
  have hsum := partialSum_single gTable (gTable 1) hsb
  have hne : (gTable 0).1 ≠ (gTable 1).1 := by decide +kernel
  have hlater (i : ℕ) (hi : 0 < i) (h : i < tables.length) :
      (pointOf tables[i]).1 - (chord (gTable 1) (gTable 0)).1 ≠ 0 := by
    have hclear := clear_after hi (by omega) h
    rw [hentry] at hclear
    exact sub_ne_zero.mpr hclear
  refine ⟨?_, ?_, sub_ne_zero.mpr hne.symm⟩
  · intro i hi
    change (gTable i).1 - (partialSum gTable (lib.num2BitsOut 7 (1 : ℕ)) (gTable 1) i).1 ≠ 0
    rw [hsum i hi.le]
    by_cases h0 : i ≤ 0
    · rw [if_pos h0, Nat.le_zero.mp h0]
      exact sub_ne_zero.mpr hne
    · have hout := hlater i (by omega) (by omega)
      rw [tables_score hi (by omega)] at hout
      rwa [if_neg h0]
  · intro i hi
    change (hTable i).1 - (partialSum hTable (lib.num2BitsOut 254 0)
      (partialSum gTable (lib.num2BitsOut 7 (1 : ℕ)) (gTable 1) 7) i).1 ≠ 0
    have hbb (i : ℕ) (hi : i < 254) : lib.num2BitsOut 254 0 i = 0 := by
      rw [blindingBits_eq lib 0 i hi, ZMod.val_zero, digits_zero]
    have hout := hlater (7 + i) (by omega) (by omega)
    rw [tables_blinding hi (by omega)] at hout
    rw [partialSum_skip hTable _ hbb i hi.le, hsum 7 le_rfl, if_neg (by omega)]
    exact hout

theorem complete_zero_score (lib : Circomlib) (mode : DivisionByZero) (threshold : ℕ) :
    Complete lib mode 0 threshold 0 := by
  intro x y h heq
  rw [zero_nsmul, ZMod.val_zero, zero_nsmul, add_zero] at heq
  cases heq

theorem complete_of_addend (lib : Circomlib) {score threshold : ℕ} (hs : score ≤ 100)
    (ht : threshold ≤ score) {blinding : Signal} (h : AtMostOneAddend score blinding.val) :
    Complete lib .zero score threshold blinding := by
  rcases h with ⟨hb, rfl | ⟨k, rfl⟩⟩ | ⟨rfl, k, hb⟩
  · rw [(ZMod.val_eq_zero blinding).mp hb]
    exact complete_zero_score lib .zero threshold
  · rw [(ZMod.val_eq_zero blinding).mp hb]
    have hk : k < 7 := (Nat.pow_lt_pow_iff_right (by norm_num)).mp
      (lt_of_le_of_lt hs (by norm_num : 100 < 2 ^ 7))
    exact complete_score_digit lib hk ht
  · obtain rfl : threshold = 0 := by omega
    have hk : k < 254 := (Nat.pow_lt_pow_iff_right (by norm_num)).mp (hb ▸ val_lt_pow blinding)
    exact complete_blinding_digit lib hk hb

theorem incomplete_of_mismatch (lib : Circomlib) {mode : DivisionByZero} {score threshold : ℕ}
    (hs : score ≤ 100) (ht : threshold ≤ score) (h0 : score ≠ 0) (hm : Mismatch score) :
    ¬ Complete lib mode score threshold 0 := by
  intro hc
  obtain ⟨x, y, h, heq⟩ := nsmul_generator_finite h0 hs
  obtain ⟨a, ⟨rfl, -⟩, hsat⟩ := hc x y h (by rw [ZMod.val_zero, zero_nsmul, add_zero, heq])
  have hcommit := commitment_eq hs heq
  have hnot := mismatch_not_satisfied lib hs ht hm
  rw [hcommit] at hnot
  exact hnot hsat

theorem complete_even_iff (lib : Circomlib) {score : ℕ} (hs : score ≤ 100)
    (heven : score.testBit 0 = false) (threshold : ℕ) (blinding : Signal) :
    Complete lib .failure score threshold blinding ↔
      score • generator + blinding.val • hBase = 0 := by
  constructor
  · intro hc
    cases hP : score • generator + blinding.val • hBase with
    | zero => rfl
    | some x y h =>
      rcases hc x y h hP with ⟨a, ⟨rfl, hdiv⟩, -⟩
      exact absurd (hdiv rfl) (even_divides_by_zero lib hs heven blinding _ _)
  · intro hP x y h heq
    rw [hP] at heq
    cases heq

/-- With blinding zero and divisions by zero failing, only the first entry can be added. -/
theorem complete_failure_iff (lib : Circomlib) {score threshold : ℕ} (hs : score ≤ 100)
    (ht : threshold ≤ score) : Complete lib .failure score threshold 0 ↔ score ≤ 1 := by
  constructor
  · intro hc
    by_contra hlt
    by_cases heven : score.testBit 0 = false
    · have hP := (complete_even_iff lib hs heven threshold 0).mp hc
      rcases nsmul_generator_finite (by omega) hs with ⟨x, y, h, heq⟩
      rw [ZMod.val_zero, zero_nsmul, add_zero, heq] at hP
      cases hP
    · rcases mismatch_of_digits score (List.mem_range.mpr (by omega)) with h0 | ⟨k, -, rfl⟩ | hm
      · omega
      · have hk : k ≠ 0 := by
          rintro rfl
          omega
        rw [Nat.testBit_two_pow] at heven
        simp [hk] at heven
      · exact absurd hc (incomplete_of_mismatch lib hs ht (by omega) hm)
  · intro h
    obtain rfl | rfl : score = 0 ∨ score = 1 := by omega
    · exact complete_zero_score lib .failure threshold
    · intro x y h heq
      have hlen : 0 < tables.length := by rw [length_tables]; omega
      rcases complete_score_digit lib (by omega : 0 < 7) ht x y h heq with ⟨a, ⟨rfl, -⟩, hsat⟩
      refine ⟨_, ⟨rfl, ?_⟩, hsat⟩
      intro _
      rcases gPow2_eq 0 (by omega) with ⟨hc, htable⟩
      rw [ZMod.val_zero, zero_nsmul, add_zero, ← pow_zero 2, htable] at heq
      have hcommit := commit_eq (tables_score (by omega) hlen ▸ List.getElem_mem hlen) heq
      rw [show (x.val : Signal) = (gTable 0).1 from congrArg Prod.fst hcommit,
        show (y.val : Signal) = (gTable 0).2 from congrArg Prod.snd hcommit]
      exact one_noZeroDivision lib threshold

/-- With one addend the honest assignment is accepted. With blinding zero that is the whole
condition, and where a division by zero fails only the score one is left; for even scores
no blinding helps there. -/
theorem complete_iff_one_addend (lib : Circomlib) {score threshold : ℕ} (hs : score ≤ 100)
    (ht : threshold ≤ score) :
    (∀ blinding : Signal, AtMostOneAddend score blinding.val →
      Complete lib .zero score threshold blinding) ∧
    (Complete lib .zero score threshold 0 ↔ AtMostOneAddend score 0) ∧
    (Complete lib .failure score threshold 0 ↔ score ≤ 1) ∧
    (score.testBit 0 = false → ∀ blinding : Signal,
      Complete lib .failure score threshold blinding ↔
        score • generator + blinding.val • hBase = 0) := by
  refine ⟨?_, ?_, complete_failure_iff lib hs ht, ?_⟩
  · intro blinding h
    exact complete_of_addend lib hs ht h
  · constructor
    · intro hc
      by_cases h0 : score = 0
      · exact .inl ⟨rfl, .inl h0⟩
      · rcases mismatch_of_digits score (List.mem_range.mpr (by omega)) with h | ⟨k, -, hk⟩ | hm
        · exact absurd h h0
        · exact .inl ⟨rfl, .inr ⟨k, hk⟩⟩
        · exact absurd hc (incomplete_of_mismatch lib hs ht h0 hm)
    · intro h
      exact complete_of_addend lib hs ht (by rwa [ZMod.val_zero])
  · intro heven blinding
    exact complete_even_iff lib hs heven threshold blinding

/-- The readings for the score `3`, which adds two table points. -/
theorem one_addend_at_three :
    (∀ blinding : Signal, AtMostOneAddend 3 blinding.val →
      Complete Circomlib.reference .zero 3 0 blinding) ∧
    (Complete Circomlib.reference .zero 3 0 0 ↔ AtMostOneAddend 3 0) ∧
    (Complete Circomlib.reference .failure 3 0 0 ↔ 3 ≤ 1) ∧
    (Nat.testBit 3 0 = false → ∀ blinding : Signal,
      Complete Circomlib.reference .failure 3 0 blinding ↔
        3 • generator + blinding.val • hBase = 0) :=
  complete_iff_one_addend Circomlib.reference (by decide) (by decide)

def BlindingRegular (score : ℕ) (blinding : Signal) : Prop :=
  ∀ i < 254, (hTable i).1 ≠ (blindingSum score blinding i).1

theorem three_avoids : ∀ e ∈ hPow2,
    (e.1 : Signal) * (scoreTriple 3 7).z ^ 2 ≠ (scoreTriple 3 7).x := by
  decide +kernel

theorem three_regular : BlindingRegular 3 0 := by
  intro i hi heq
  have hlt : i < hPow2.length := length_hPow2 ▸ hi
  obtain ⟨hsum, hz⟩ := scoreSum_eq 3 7
  rw [blindingSum, ZMod.val_zero, partialSum_skip _ _ (fun i _ => digits_zero i) i hi.le, hsum]
    at heq
  have havoid := three_avoids _ (List.getElem_mem hlt)
  rw [show hPow2[i] = (getHPow2X i, getHPow2Y i) from zip_getElem hlt] at havoid
  exact havoid ((eq_div_iff (pow_ne_zero 2 hz)).mp heq)

/-- A score of three with blinding zero is never accepted, under either reading. -/
theorem honest_three_rejected : ¬ ∀ lib score threshold blinding, score ≤ 100 →
    threshold ≤ score → BlindingRegular score blinding →
    Complete lib .zero score threshold blinding ∨
        Complete lib .failure score threshold blinding := by
  intro hcomplete
  have hm : Mismatch 3 := by decide +kernel
  rcases hcomplete Circomlib.reference 3 0 0 (by decide) (by decide) three_regular with hc | hc
  · exact incomplete_of_mismatch _ (by decide) (by decide) (by decide) hm hc
  · exact incomplete_of_mismatch _ (by decide) (by decide) (by decide) hm hc

end ScoreRangeCompleteness
