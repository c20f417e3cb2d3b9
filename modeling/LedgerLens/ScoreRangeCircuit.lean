import LedgerLens.ByteStrings
import LedgerLens.CircuitConstants

/-!
# The score range circuit

`circuits/score_range_proof.circom` over the scalar field: the constraint system, in
which `<--` assignments do not appear, and the assignments an honest prover computes.
The templates of circomlib are a parameter with their documented constraints.
-/
namespace ScoreRangeCircuit

open Bn254 CircuitConstants
open scoped JacobianCoordinates

abbrev Signal := ScalarField

/-- `Num2Bits` and `GreaterEqThan`: what the templates constrain and what they assign. -/
structure Circomlib where
  num2Bits : ℕ → Signal → (ℕ → Signal) → Prop
  num2BitsOut : ℕ → Signal → ℕ → Signal
  greaterEqThan : ℕ → Signal → Signal → Signal → Prop
  greaterEqThanOut : ℕ → Signal → Signal → Signal
  num2Bits_iff : ∀ n input out, num2Bits n input out ↔
    (∀ i < n, out i * (out i - 1) = 0) ∧ ∑ i ∈ Finset.range n, out i * 2 ^ i = input
  num2BitsOut_eq : ∀ n input, ∀ i < n, num2BitsOut n input i = (input.val.testBit i).toNat
  greaterEqThan_iff : ∀ n ≤ 252, ∀ a b out : Signal, a.val < 2 ^ n → b.val < 2 ^ n →
    (greaterEqThan n a b out ↔ out = if b.val ≤ a.val then 1 else 0)
  greaterEqThanOut_eq : ∀ n ≤ 252, ∀ a b : Signal, a.val < 2 ^ n → b.val < 2 ^ n →
    greaterEqThanOut n a b = if b.val ≤ a.val then 1 else 0

def Circomlib.reference : Circomlib where
  num2Bits n input out := (∀ i < n, out i * (out i - 1) = 0) ∧
    ∑ i ∈ Finset.range n, out i * 2 ^ i = input
  num2BitsOut _ input i := (input.val.testBit i).toNat
  greaterEqThan _ a b out := out = if b.val ≤ a.val then 1 else 0
  greaterEqThanOut _ a b := if b.val ≤ a.val then 1 else 0
  num2Bits_iff _ _ _ := Iff.rfl
  num2BitsOut_eq _ _ _ _ := rfl
  greaterEqThan_iff _ _ _ _ _ _ _ := Iff.rfl
  greaterEqThanOut_eq _ _ _ _ _ _ := rfl

structure Bn254CondAdd where
  x1 : Signal
  y1 : Signal
  x2 : Signal
  y2 : Signal
  bit : Signal
  lambda : Signal
  x3Add : Signal
  y3Add : Signal
  x3 : Signal
  y3 : Signal

/-- The constraints of `Bn254CondAdd`. -/
structure Bn254CondAdd.Satisfied (c : Bn254CondAdd) : Prop where
  boolean : c.bit * (c.bit - 1) = 0
  slope : c.lambda * (c.x2 - c.x1) = c.y2 - c.y1
  x3Add_eq : c.x3Add = c.lambda * c.lambda - c.x1 - c.x2
  y3Add_eq : c.y3Add = c.lambda * (c.x1 - c.x3Add) - c.y1
  x3_eq : c.x3 = c.x1 + c.bit * (c.x3Add - c.x1)
  y3_eq : c.y3 = c.y1 + c.bit * (c.y3Add - c.y1)

structure Bn254Add where
  x1 : Signal
  y1 : Signal
  x2 : Signal
  y2 : Signal
  lambda : Signal
  x3 : Signal
  y3 : Signal

/-- The constraints of `Bn254Add`. -/
structure Bn254Add.Satisfied (c : Bn254Add) : Prop where
  slope : c.lambda * (c.x2 - c.x1) = c.y2 - c.y1
  x3_eq : c.x3 = c.lambda * c.lambda - c.x1 - c.x2
  y3_eq : c.y3 = c.lambda * (c.x1 - c.x3) - c.y1

/-- One accumulation loop: the sums between the additions, the additions, the bits. -/
structure Accumulator where
  x : ℕ → Signal
  y : ℕ → Signal
  add : ℕ → Bn254CondAdd

/-- The wiring of a loop of `n` rounds; the addends are assigned, not constrained. -/
structure Accumulator.Satisfied (acc : Accumulator) (n : ℕ) (bits : ℕ → Signal) : Prop where
  add_satisfied : ∀ i < n, (acc.add i).Satisfied
  x1_eq : ∀ i < n, (acc.add i).x1 = acc.x i
  y1_eq : ∀ i < n, (acc.add i).y1 = acc.y i
  bit_eq : ∀ i < n, (acc.add i).bit = bits i
  x_succ : ∀ i < n, acc.x (i + 1) = (acc.add i).x3
  y_succ : ∀ i < n, acc.y (i + 1) = (acc.add i).y3

structure Assignment where
  score : Signal
  blinding : Signal
  commitX : Signal
  commitY : Signal
  threshold : Signal
  scoreBits : ℕ → Signal
  blindingBits : ℕ → Signal
  dx : Signal
  dy : Signal
  scoreAcc : Accumulator
  blindingAcc : Accumulator
  finalAdd : Bn254Add
  geqOut : Signal

/-- The constraints of `ScoreRangeProof`; its parameter `maxScore` occurs in none of them. -/
structure Satisfies (lib : Circomlib) (a : Assignment) : Prop where
  scoreBits : lib.num2Bits 7 a.score a.scoreBits
  blindingBits : lib.num2Bits 254 a.blinding a.blindingBits
  score_start : a.scoreAcc.x 0 = a.dx ∧ a.scoreAcc.y 0 = a.dy
  score_loop : a.scoreAcc.Satisfied 7 a.scoreBits
  blinding_start : a.blindingAcc.x 0 = a.scoreAcc.x 7 ∧ a.blindingAcc.y 0 = a.scoreAcc.y 7
  blinding_loop : a.blindingAcc.Satisfied 254 a.blindingBits
  final_inputs : a.finalAdd.x1 = a.commitX ∧ a.finalAdd.y1 = a.commitY ∧
    a.finalAdd.x2 = a.dx ∧ a.finalAdd.y2 = a.dy
  final_add : a.finalAdd.Satisfied
  final_x : a.finalAdd.x3 = a.blindingAcc.x 254
  final_y : a.finalAdd.y3 = a.blindingAcc.y 254
  geq : lib.greaterEqThan 8 a.score a.threshold a.geqOut
  geq_one : a.geqOut = 1

/-- `<--` of the conditional addition; field division by zero gives zero here. -/
def condAdd (p q : Signal × Signal) (bit : Signal) : Bn254CondAdd :=
  let lambda := (q.2 - p.2) / (q.1 - p.1)
  let x3Add := lambda * lambda - p.1 - q.1
  let y3Add := lambda * (p.1 - x3Add) - p.2
  { x1 := p.1, y1 := p.2, x2 := q.1, y2 := q.2, bit, lambda, x3Add, y3Add
    x3 := p.1 + bit * (x3Add - p.1)
    y3 := p.2 + bit * (y3Add - p.2) }

/-- `<--` of the final addition. -/
def finalAddition (p q : Signal × Signal) : Bn254Add :=
  let lambda := (q.2 - p.2) / (q.1 - p.1)
  let x3 := lambda * lambda - p.1 - q.1
  { x1 := p.1, y1 := p.2, x2 := q.1, y2 := q.2, lambda, x3
    y3 := lambda * (p.1 - x3) - p.2 }

def partialSum (table : ℕ → Signal × Signal) (bits : ℕ → Signal) (start : Signal × Signal) :
    ℕ → Signal × Signal
  | 0 => start
  | i + 1 =>
    let c := condAdd (partialSum table bits start i) (table i) (bits i)
    (c.x3, c.y3)

def accumulate (table : ℕ → Signal × Signal) (bits : ℕ → Signal) (start : Signal × Signal) :
    Accumulator where
  x i := (partialSum table bits start i).1
  y i := (partialSum table bits start i).2
  add i := condAdd (partialSum table bits start i) (table i) (bits i)

def gTable (i : ℕ) : Signal × Signal := (getGPow2X i, getGPow2Y i)
def hTable (i : ℕ) : Signal × Signal := (getHPow2X i, getHPow2Y i)

def witness (lib : Circomlib) (score blinding commitX commitY threshold : Signal) : Assignment :=
  let scoreBits := lib.num2BitsOut 7 score
  let blindingBits := lib.num2BitsOut 254 blinding
  let scoreAcc := accumulate gTable scoreBits (gTable 1)
  let blindingAcc := accumulate hTable blindingBits (scoreAcc.x 7, scoreAcc.y 7)
  { score, blinding, commitX, commitY, threshold, scoreBits, blindingBits
    dx := (gTable 1).1
    dy := (gTable 1).2
    scoreAcc, blindingAcc
    finalAdd := finalAddition (commitX, commitY) (gTable 1)
    geqOut := lib.greaterEqThanOut 8 score threshold }

def Assignment.NoZeroDivision (a : Assignment) : Prop :=
  (∀ i < 7, (a.scoreAcc.add i).x2 - (a.scoreAcc.add i).x1 ≠ 0) ∧
  (∀ i < 254, (a.blindingAcc.add i).x2 - (a.blindingAcc.add i).x1 ≠ 0) ∧
  a.finalAdd.x2 - a.finalAdd.x1 ≠ 0

inductive DivisionByZero where
  | zero
  | failure
  deriving DecidableEq, Repr

def Computes (lib : Circomlib) (mode : DivisionByZero)
    (score blinding commitX commitY threshold : Signal) (a : Assignment) : Prop :=
  a = witness lib score blinding commitX commitY threshold ∧
    (mode = .failure → a.NoZeroDivision)

theorem boolean_cases {b : Signal} (h : b * (b - 1) = 0) : b = 0 ∨ b = 1 := by
  rcases mul_eq_zero.mp h with h | h
  · exact .inl h
  · exact .inr (sub_eq_zero.mp h)

theorem num2Bits_bound {n : ℕ} {out : ℕ → Signal} (h : ∀ i < n, out i * (out i - 1) = 0) :
    ∃ v : ℕ, v < 2 ^ n ∧ ∑ i ∈ Finset.range n, out i * 2 ^ i = v := by
  induction n with
  | zero => exact ⟨0, by norm_num, by simp⟩
  | succ n ih =>
    obtain ⟨v, hv, hsum⟩ := ih fun i hi => h i (by omega)
    rw [Finset.sum_range_succ, hsum]
    rcases boolean_cases (h n (by omega)) with hbit | hbit
    · exact ⟨v, by rw [pow_succ]; omega, by rw [hbit]; ring⟩
    · exact ⟨v + 2 ^ n, by rw [pow_succ]; omega, by rw [hbit]; push_cast; ring⟩

theorem satisfied_score_range {lib : Circomlib} {a : Assignment} (h : Satisfies lib a)
    (hT : a.threshold.val ≤ 100) : a.threshold.val ≤ a.score.val ∧ a.score.val ≤ 127 := by
  obtain ⟨hbits, hsum⟩ := (lib.num2Bits_iff _ _ _).mp h.scoreBits
  obtain ⟨v, hv, hvalue⟩ := num2Bits_bound hbits
  have hscore : a.score.val = v := by
    rw [← hsum, hvalue, ZMod.val_natCast, Nat.mod_eq_of_lt (lt_trans hv (by norm_num))]
  have hgeq := (lib.greaterEqThan_iff 8 (by norm_num) _ _ _ (by omega) (by omega)).mp h.geq
  rw [h.geq_one] at hgeq
  refine ⟨?_, by omega⟩
  by_contra hlt
  rw [if_neg hlt] at hgeq
  exact one_ne_zero hgeq

theorem num2Bits_testBit (lib : Circomlib) {n v : ℕ} (hv : v < 2 ^ n) {out : ℕ → Signal}
    (hout : ∀ i < n, out i = (v.testBit i).toNat) : lib.num2Bits n v out := by
  refine (lib.num2Bits_iff _ _ _).mpr ⟨fun i hi => ?_, ?_⟩
  · rw [hout i hi]
    cases v.testBit i <;> simp
  · have hsum := congrArg (Nat.cast : ℕ → Signal) (ByteStrings.sum_testBit v n)
    rw [Nat.mod_eq_of_lt hv] at hsum
    push_cast at hsum
    rw [← hsum]
    exact Finset.sum_congr rfl fun i hi => by rw [hout i (Finset.mem_range.mp hi)]

end ScoreRangeCircuit
