import LedgerLens.ScoreRangeCircuit

/-!
# Forged assignments of the score range circuit

The addends of every addition and the starting point are assigned, not constrained, so
a chain of additions with slope zero ends wherever the final addition needs it to end.
-/
namespace ScoreRangeSoundness

open Bn254 CircuitConstants ScoreRangeCircuit
open scoped JacobianCoordinates

/-- The statement the circuit is meant to prove about its private inputs. -/
def Meets (a : Assignment) : Prop :=
  a.threshold.val ≤ a.score.val ∧ a.score.val ≤ 100 ∧
  ∃ x y h, a.score.val • generator + a.blinding.val • hBase = .some x y h ∧
    a.commitX = x.val ∧ a.commitY = y.val

/-- Every accepted assignment with these public inputs meets the statement. -/
def SoundFor (lib : Circomlib) (commitX commitY threshold : Signal) : Prop :=
  ∀ a, Satisfies lib a → a.commitX = commitX → a.commitY = commitY → a.threshold = threshold →
    Meets a

/-- Adding with slope zero the chosen addend moves between these two points. -/
def turn (cx cy : Signal) (odd : Bool) : Signal × Signal :=
  if odd then (-2 * cx, -cy) else (cx, cy)

/-- A skipped addition takes the current point as its addend. -/
def forgedAdd (cx : Signal) (p : Signal × Signal) (bit : Bool) : Bn254CondAdd :=
  let x2 := if bit then cx else p.1
  let x3Add := -p.1 - x2
  { x1 := p.1, y1 := p.2, x2, y2 := p.2, bit := bit.toNat, lambda := 0, x3Add, y3Add := -p.2
    x3 := p.1 + bit.toNat * (x3Add - p.1)
    y3 := p.2 + bit.toNat * (-p.2 - p.2) }

theorem forgedAdd_satisfied (cx : Signal) (p : Signal × Signal) (bit : Bool) :
    (forgedAdd cx p bit).Satisfied where
  boolean := by cases bit <;> simp [forgedAdd]
  slope := by simp [forgedAdd]
  x3Add_eq := by simp only [forgedAdd]; ring
  y3Add_eq := by simp only [forgedAdd]; ring
  x3_eq := rfl
  y3_eq := rfl

theorem forgedAdd_turn (cx cy : Signal) (odd bit : Bool) :
    let c := forgedAdd cx (turn cx cy odd) bit
    turn cx cy (odd ^^ bit) = (c.x3, c.y3) := by
  cases odd <;> cases bit <;> simp [forgedAdd, turn] <;> ring

def forgedAccumulator (cx cy : Signal) (odd bit : ℕ → Bool) : Accumulator where
  x i := (turn cx cy (odd i)).1
  y i := (turn cx cy (odd i)).2
  add i := forgedAdd cx (turn cx cy (odd i)) (bit i)

theorem forgedAccumulator_satisfied {cx cy : Signal} (odd bit : ℕ → Bool) {n : ℕ}
    (h : ∀ i < n, odd (i + 1) = (odd i ^^ bit i)) :
    (forgedAccumulator cx cy odd bit).Satisfied n fun i => (bit i).toNat where
  add_satisfied _ _ := forgedAdd_satisfied _ _ _
  x1_eq _ _ := rfl
  y1_eq _ _ := rfl
  bit_eq _ _ := rfl
  x_succ i hi := by
    simp only [forgedAccumulator, h i hi]
    exact congrArg Prod.fst (forgedAdd_turn cx cy (odd i) (bit i))
  y_succ i hi := by
    simp only [forgedAccumulator, h i hi]
    exact congrArg Prod.snd (forgedAdd_turn cx cy (odd i) (bit i))

/-- Parity of the binary digits of `s` below position `i`. -/
def oddBelow (s i : ℕ) : Bool := (List.range i).foldl (fun odd j => odd ^^ s.testBit j) false

theorem oddBelow_succ (s i : ℕ) : oddBelow s (i + 1) = (oddBelow s i ^^ s.testBit i) := by
  rw [oddBelow, List.range_succ, List.foldl_concat]
  rfl

def forged (s : ℕ) (commitX commitY threshold : Signal) : Assignment where
  score := s
  blinding := 0
  commitX := commitX
  commitY := commitY
  threshold := threshold
  scoreBits i := (s.testBit i).toNat
  blindingBits _ := 0
  dx := commitX
  dy := commitY
  scoreAcc := forgedAccumulator commitX commitY (oddBelow s) s.testBit
  blindingAcc := forgedAccumulator commitX commitY (fun _ => true) fun _ => false
  finalAdd := ⟨commitX, commitY, commitX, commitY, 0, -2 * commitX, -commitY⟩
  geqOut := 1

/-- Every score with an odd number of binary digits is proved for every commitment. -/
theorem forged_satisfies (lib : Circomlib) {s : ℕ} (hs : s < 2 ^ 7) (hodd : oddBelow s 7 = true)
    (commitX commitY : Signal) {threshold : Signal} (hT : threshold.val ≤ s) :
    Satisfies lib (forged s commitX commitY threshold) where
  scoreBits := num2Bits_testBit lib hs fun _ _ => rfl
  blindingBits := by
    have hzero := num2Bits_testBit lib (by norm_num : 0 < 2 ^ 254) fun i _ =>
      show (0 : Signal) = (Nat.testBit 0 i).toNat by simp
    rwa [Nat.cast_zero] at hzero
  score_start := ⟨rfl, rfl⟩
  score_loop := forgedAccumulator_satisfied _ _ fun i _ => oddBelow_succ s i
  blinding_start := by
    simp only [forged, forgedAccumulator, hodd]
    exact ⟨trivial, trivial⟩
  blinding_loop := by
    have hloop : (forgedAccumulator commitX commitY (fun _ => true) fun _ => false).Satisfied 254
        fun _ => (false.toNat : ℕ) := forgedAccumulator_satisfied _ _ fun _ _ => rfl
    simp only [Bool.toNat_false, Nat.cast_zero] at hloop
    exact hloop
  final_inputs := ⟨rfl, rfl, rfl, rfl⟩
  final_add := ⟨by simp [forged], by simp only [forged]; ring, by simp only [forged]; ring⟩
  final_x := rfl
  final_y := rfl
  geq := by
    have hval : (s : Signal).val = s := ZMod.val_cast_of_lt (hs.trans (by norm_num))
    refine (lib.greaterEqThan_iff 8 (by norm_num) _ _ _ ?_ ?_).mpr ?_
    · simp only [forged, hval]
      omega
    · simp only [forged]
      omega
    · simp only [forged, hval, if_pos hT]
  geq_one := rfl

/-- No public input is safe: `104` is accepted for every commitment and threshold. -/
theorem never_sound (lib : Circomlib) (commitX commitY threshold : Signal)
    (hT : threshold.val ≤ 100) : ¬ SoundFor lib commitX commitY threshold := by
  intro hsound
  have hmeets := hsound _ (forged_satisfies lib (s := 104) (by norm_num) (by decide) commitX commitY
    (by omega)) rfl rfl rfl
  have hscore : (forged 104 commitX commitY threshold).score.val = 104 :=
    ZMod.val_cast_of_lt (by norm_num)
  have hle := hmeets.2.1
  omega

theorem sound_nowhere_at_seventy : ¬ SoundFor Circomlib.reference 1 2 70 :=
  never_sound _ 1 2 70 (by decide)

/-- A score of `104` against the threshold `70`, for the coordinates of `G`. -/
theorem out_of_range_accepted : ¬ ∀ lib commitX commitY threshold, threshold.val ≤ 100 →
    SoundFor lib commitX commitY threshold := by
  intro hsound
  have hmeets := hsound Circomlib.reference 1 2 70 (by decide) _
    (forged_satisfies _ (s := 104) (by norm_num) (by decide) 1 2 (by decide)) rfl rfl rfl
  exact absurd hmeets.2.1 (by decide)

end ScoreRangeSoundness
