import LedgerLens.Proofs.SigmaOrProof
import Mathlib.Algebra.Field.ZMod
import Mathlib.Algebra.Module.ZMod
import Mathlib.GroupTheory.OrderOfElement
import Mathlib.Tactic.NormNum.Prime

/-!
# The equations of the threshold verifier

The loop of `verify_threshold` (contract) and `verify_threshold_proof` (SDK), written
once over the group operations it calls. The contract runs it on Jacobian points, the
SDK on library points, and the soundness results on any group of prime order.
-/
namespace ThresholdVerifier

/-- Bits of `score - threshold` in a proof. -/
def NUM_BITS : ℕ := 7

/-- What the verifier calls on points `P` and scalars `S`. -/
structure GroupOps (P S : Type*) where
  infinity : P
  add : P → P → P
  neg : P → P
  mulScalar : P → S → P
  eq : P → P → Bool
  scalarAdd : S → S → S
  scalarEq : S → S → Bool
  scalarOfU64 : UInt64 → S

structure BitProof (P S : Type*) where
  commit : P
  c0 : S
  c1 : S
  s0 : S
  s1 : S
  deriving DecidableEq, Repr

variable {P S : Type*} (ops : GroupOps P S) (g h : P)

/-- `R0 = s0*H - c0*B`. -/
def recomputeR0 (bp : BitProof P S) : P :=
  ops.add (ops.mulScalar h bp.s0) (ops.neg (ops.mulScalar bp.commit bp.c0))

/-- `R1 = s1*H - c1*(B - G)`. -/
def recomputeR1 (bp : BitProof P S) : P :=
  let bMinusG := ops.add bp.commit (ops.neg g)
  ops.add (ops.mulScalar h bp.s1) (ops.neg (ops.mulScalar bMinusG bp.c1))

def bitHolds (fiatShamir : P → P → P → S) (bp : BitProof P S) : Bool :=
  let challenge := fiatShamir (recomputeR0 ops h bp) (recomputeR1 ops g h bp) bp.commit
  ops.scalarEq challenge (ops.scalarAdd bp.c0 bp.c1)

/-- `Σ 2^i * B_i`, accumulated from `infinity`. -/
def accumulated (bits : List (BitProof P S)) : P :=
  bits.zipIdx.foldl (fun acc e =>
    ops.add acc (ops.mulScalar e.1.commit (ops.scalarOfU64 (1 <<< UInt64.ofNat e.2))))
    ops.infinity

/-- `Σ 2^i * B_i == P - T*G`. -/
def bitSumHolds (storedP : P) (threshold : UInt32) (bits : List (BitProof P S)) : Bool :=
  let pMinusTG := ops.add storedP (ops.neg (ops.mulScalar g (ops.scalarOfU64 threshold.toUInt64)))
  ops.eq (accumulated ops bits) pMinusTG

def equationsHold (fiatShamir : P → P → P → S) (storedP : P) (threshold : UInt32)
    (bits : List (BitProof P S)) : Bool :=
  bits.all (bitHolds ops g h fiatShamir) && bitSumHolds ops g storedP threshold bits

def AcceptsTranscript (R0 R1 : P) (bp : BitProof P S) : Prop :=
  recomputeR0 ops h bp = R0 ∧ recomputeR1 ops g h bp = R1

/-- Two accepted transcripts of one bit: same messages and commitment, other challenge. -/
def Forked (bp bp' : BitProof P S) : Prop :=
  ∃ R0 R1, AcceptsTranscript ops g h R0 R1 bp ∧ AcceptsTranscript ops g h R0 R1 bp' ∧
    bp'.commit = bp.commit ∧ ops.scalarAdd bp.c0 bp.c1 ≠ ops.scalarAdd bp'.c0 bp'.c1

section PrimeOrder

variable {𝔾 : Type*} [AddCommGroup 𝔾] [DecidableEq 𝔾] {q : ℕ}

/-- The same calls on an arbitrary group, with scalars modulo `q`. -/
def primeOrderOps (𝔾 : Type*) [AddCommGroup 𝔾] [DecidableEq 𝔾] (q : ℕ) :
    GroupOps 𝔾 (ZMod q) where
  infinity := 0
  add := (· + ·)
  neg := (- ·)
  mulScalar P k := k.val • P
  eq P Q := decide (P = Q)
  scalarAdd := (· + ·)
  scalarEq := (· == ·)
  scalarOfU64 v := v.toNat

omit [DecidableEq 𝔾] in
theorem val_natCast_smul [NeZero q] {x : 𝔾} (hq : q • x = 0) (k : ℕ) :
    (k : ZMod q).val • x = k • x := by
  rw [ZMod.val_natCast]
  conv_rhs => rw [← Nat.mod_add_div k q, add_nsmul, mul_comm, mul_nsmul', hq, nsmul_zero, add_zero]

omit [DecidableEq 𝔾] in
private theorem val_smul [NeZero q] [Module (ZMod q) 𝔾] (k : ZMod q) (x : 𝔾) :
    k.val • x = k • x := by
  rw [← Nat.cast_smul_eq_nsmul (ZMod q), ZMod.natCast_zmod_val]

theorem accumulated_from [NeZero q] (bits : List (BitProof 𝔾 (ZMod q)))
    (hq : ∀ bp ∈ bits, q • bp.commit = 0) : ∀ (k : ℕ) (acc : 𝔾), k + bits.length ≤ 64 →
    (bits.zipIdx k).foldl (fun acc e =>
      (primeOrderOps 𝔾 q).add acc ((primeOrderOps 𝔾 q).mulScalar e.1.commit
        ((primeOrderOps 𝔾 q).scalarOfU64 (1 <<< UInt64.ofNat e.2)))) acc =
      acc + ∑ i : Fin bits.length, 2 ^ (k + i.val) • bits[i].commit := by
  induction bits with
  | nil => intro k acc _; simp
  | cons bp bits ih =>
    intro k acc hk
    rw [List.length_cons] at hk
    have hweight : (1 <<< UInt64.ofNat k : UInt64).toNat = 2 ^ k := by
      have hlt : k < 64 := by omega
      rw [UInt64.toNat_shiftLeft, UInt64.toNat_one, UInt64.toNat_ofNat', Nat.one_shiftLeft,
        Nat.mod_eq_of_lt (by omega : k < 2 ^ 64), Nat.mod_eq_of_lt hlt]
      exact Nat.mod_eq_of_lt (Nat.pow_lt_pow_right (by decide) hlt)
    have htail := ih fun bp' hbp' => hq bp' (List.mem_cons_of_mem bp hbp')
    rw [List.zipIdx_cons, List.foldl_cons, htail (k + 1) _ (by omega)]
    simp only [primeOrderOps, hweight, val_natCast_smul (hq bp List.mem_cons_self)]
    have hsplit := Fin.sum_univ_succ fun i : Fin (bits.length + 1) =>
      2 ^ (k + i.val) • ((bp :: bits).get i).commit
    have hshift : ∑ i : Fin bits.length, 2 ^ (k + 1 + i.val) • bits[i].commit =
        ∑ i : Fin bits.length, 2 ^ (k + i.succ.val) • ((bp :: bits).get i.succ).commit := by
      refine Finset.sum_congr rfl fun i _ => ?_
      rw [Fin.val_succ, Nat.add_assoc, Nat.add_comm 1]
      rfl
    rw [add_assoc, hshift]
    exact congrArg (acc + ·) hsplit.symm

theorem accumulated_eq [NeZero q] {bits : List (BitProof 𝔾 (ZMod q))} (hlen : bits.length ≤ 64)
    (hq : ∀ bp ∈ bits, q • bp.commit = 0) : accumulated (primeOrderOps 𝔾 q) bits =
      ∑ i : Fin bits.length, 2 ^ i.val • bits[i].commit := by
  have h := accumulated_from bits hq 0 0 (by omega)
  simp only [zero_add] at h
  exact h

/-- The committed bit, from two runs that differ in the challenge. -/
def extractBit (bp bp' : BitProof 𝔾 (ZMod q)) : ℕ := SigmaOrProof.extractBit bp.c0 bp'.c0

def extractBlinding [Fact q.Prime] (bp bp' : BitProof 𝔾 (ZMod q)) : ZMod q :=
  SigmaOrProof.extractBlinding bp.c0 bp.c1 bp.s0 bp.s1 bp'.c0 bp'.c1 bp'.s0 bp'.s1

def extractScore (threshold : UInt32) (bits bits' : Vector (BitProof 𝔾 (ZMod q)) NUM_BITS) : ℕ :=
  threshold.toNat + ∑ i : Fin NUM_BITS, 2 ^ i.val * extractBit bits[i] bits'[i]

def extractScoreBlinding [Fact q.Prime] (bits bits' : Vector (BitProof 𝔾 (ZMod q)) NUM_BITS) :
    ZMod q :=
  ∑ i : Fin NUM_BITS, 2 ^ i.val * extractBlinding bits[i] bits'[i]

omit [AddCommGroup 𝔾] [DecidableEq 𝔾] in
theorem extractBit_le_one (bp bp' : BitProof 𝔾 (ZMod q)) : extractBit bp bp' ≤ 1 := by
  unfold extractBit SigmaOrProof.extractBit
  split_ifs
  · exact le_rfl
  · exact Nat.zero_le 1

omit [AddCommGroup 𝔾] [DecidableEq 𝔾] in
/-- Seven extracted bits never exceed `127`, whatever the order `q` is. -/
theorem extractScore_le (threshold : UInt32)
    (bits bits' : Vector (BitProof 𝔾 (ZMod q)) NUM_BITS) :
    extractScore threshold bits bits' ≤ threshold.toNat + 127 := by
  have hsum : ∑ i : Fin NUM_BITS, 2 ^ i.val * extractBit bits[i] bits'[i] ≤
      ∑ i : Fin NUM_BITS, 2 ^ i.val :=
    Finset.sum_le_sum fun i _ =>
      (Nat.mul_le_mul_left _ (extractBit_le_one bits[i] bits'[i])).trans_eq (mul_one _)
  have hall : ∑ i : Fin NUM_BITS, 2 ^ i.val = 127 := rfl
  unfold extractScore
  omega

theorem forked_opens [Fact q.Prime] [Module (ZMod q) 𝔾] {G H : 𝔾}
    {bp bp' : BitProof 𝔾 (ZMod q)} (hf : Forked (primeOrderOps 𝔾 q) G H bp bp') :
    SigmaOrProof.OpensToBit G H bp.commit (extractBit bp bp') (extractBlinding bp bp') := by
  rcases hf with ⟨R0, R1, ⟨h0, h1⟩, ⟨k0, k1⟩, hcommit, hne⟩
  simp only [recomputeR0, recomputeR1, primeOrderOps, val_smul, hcommit, ← sub_eq_add_neg]
    at h0 h1 k0 k1 hne
  exact SigmaOrProof.bit_extract hne (h0.trans k0.symm) (h1.trans k1.symm)

/-- Forks of all seven bits and the bit sum open the stored point to a score of at
least the threshold: the opening is computed from the two runs alone. -/
theorem special_soundness [Fact q.Prime] (hcard : Nat.card 𝔾 = q) (G H storedP : 𝔾)
    (threshold : UInt32) (bits bits' : Vector (BitProof 𝔾 (ZMod q)) NUM_BITS)
    (hfork : ∀ i : Fin NUM_BITS, Forked (primeOrderOps 𝔾 q) G H bits[i] bits'[i])
    (hsum : bitSumHolds (primeOrderOps 𝔾 q) G storedP threshold bits.toList = true) :
    (∀ i : Fin NUM_BITS, extractBit bits[i] bits'[i] ≤ 1 ∧ bits[i].commit =
      extractBit bits[i] bits'[i] • G + (extractBlinding bits[i] bits'[i]).val • H) ∧
    threshold.toNat ≤ extractScore threshold bits bits' ∧
    extractScore threshold bits bits' ≤ threshold.toNat + 127 ∧
    storedP = extractScore threshold bits bits' • G +
      (extractScoreBlinding bits bits').val • H := by
  have hq (x : 𝔾) : q • x = 0 := by rw [← hcard]; exact card_nsmul_eq_zero'
  let _ : Module (ZMod q) 𝔾 := AddCommGroup.zmodModule hq
  have hopen (i : Fin NUM_BITS) := forked_opens (hfork i)
  refine ⟨?_, Nat.le_add_right _ _, extractScore_le threshold bits bits', ?_⟩
  · intro i
    rw [val_smul]
    exact hopen i
  · have hweighted := SigmaOrProof.weighted_opening Finset.univ (fun i : Fin NUM_BITS => 2 ^ i.val)
      (fun i => extractBit bits[i] bits'[i]) fun i _ => hopen i
    have hvector : accumulated (primeOrderOps 𝔾 q) bits.toList =
        ∑ i : Fin NUM_BITS, 2 ^ i.val • bits[i].commit := by
      rw [accumulated_eq (by rw [Vector.length_toList]; decide) fun bp _ => hq bp.commit]
      exact Fintype.sum_equiv (finCongr bits.length_toList) _ _ fun i => rfl
    rw [bitSumHolds, hvector, hweighted] at hsum
    simp only [primeOrderOps, decide_eq_true_eq, val_natCast_smul (hq G),
      UInt32.toNat_toUInt64] at hsum
    rw [extractScore, extractScoreBlinding, val_smul, add_nsmul, add_assoc]
    push_cast at hsum
    rw [hsum]
    abel

private instance prime_131 : Fact (Nat.Prime 131) := ⟨by norm_num⟩

private def firstRun : BitProof (ZMod 131) (ZMod 131) := ⟨7, 4, 1, 9, 12⟩
private def secondRun : BitProof (ZMod 131) (ZMod 131) := ⟨7, 4, 2, 9, 14⟩

/-- Seven forks of one commitment, over the integers modulo 131. -/
theorem special_soundness_instance : (127 * 7 + 5 : ZMod 131) =
    extractScore 5 (.replicate NUM_BITS firstRun) (.replicate NUM_BITS secondRun) • (1 : ZMod 131) +
      (extractScoreBlinding (.replicate NUM_BITS firstRun)
        (.replicate NUM_BITS secondRun)).val • (3 : ZMod 131) :=
  (special_soundness (Nat.card_zmod 131) (1 : ZMod 131) 3 (127 * 7 + 5) 5
    (.replicate NUM_BITS firstRun) (.replicate NUM_BITS secondRun)
    (fun i => ⟨_, _, ⟨rfl, rfl⟩, by
      rw [Fin.getElem_fin, Fin.getElem_fin, Vector.getElem_replicate, Vector.getElem_replicate]
      exact ⟨⟨by decide, by decide⟩, rfl, by decide⟩⟩)
    (by decide)).2.2.2

end PrimeOrder

end ThresholdVerifier
