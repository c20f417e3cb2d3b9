import LedgerLens.Proofs.ThresholdVerifier
import LedgerLens.Proofs.ZkProver

/-!
# What the prover's transcripts satisfy

The verifier's equations, over the curve group and with the challenge the prover hashed,
hold for every proof the prover returns: any witness, any draws. The deployed verifiers
differ from this one in the bytes they read and hash only.
-/
namespace HonestTranscripts

open Bn254 ByteStrings FallibleRuns ThresholdVerifier ZkCommitment ZkProver

abbrev curveOps : GroupOps G1Point ScalarField := primeOrderOps G1Point curveOrder

def record (B : G1Point) (bp : BitResponse) : BitProof G1Point ScalarField :=
  ⟨B, bp.c0, bp.c1, bp.s0, bp.s1⟩

theorem recomputeR0_ofScalar (h β c0 c1 s0 s1 : ScalarField) :
    recomputeR0 curveOps (ofScalar h) ⟨ofScalar β, c0, c1, s0, s1⟩ =
      ofScalar (SigmaOrProof.announcement h β c0 s0) := by
  simp only [recomputeR0, primeOrderOps, val_nsmul_ofScalar, ← map_neg, ← map_add]
  rw [SigmaOrProof.announcement, sub_eq_add_neg, smul_eq_mul, smul_eq_mul]

theorem recomputeR1_ofScalar (h β c0 c1 s0 s1 : ScalarField) :
    recomputeR1 curveOps generator (ofScalar h) ⟨ofScalar β, c0, c1, s0, s1⟩ =
      ofScalar (SigmaOrProof.announcement h (β - 1) c1 s1) := by
  simp only [recomputeR1, primeOrderOps, val_nsmul_ofScalar, ← ofScalar_one, ← map_neg, ← map_add]
  rw [SigmaOrProof.announcement, sub_eq_add_neg, sub_eq_add_neg, smul_eq_mul, smul_eq_mul]

section Prover

variable (ecc : PyEcc) (sha256 : List UInt8 → BytesN 32) (tape : Tape)

/-- The real branch answers its announcement, the simulated one was built around its own,
and the two challenges add up to the hash. -/
theorem proveBit_accepted {call bit blinding : ℕ} {B : G1Point} {context : BytesN 32}
    {bp : BitResponse} (hbit : bit ≤ 1) (hB : B = ofScalar (bit + blinding * hScalar sha256))
    (h : proveBit ecc sha256 tape call bit blinding B context = .ok bp) :
    ∃ R0 R1 c, challenge sha256 R0 R1 B context = .ok c ∧
      AcceptsTranscript curveOps generator (hGenerator ecc sha256) R0 R1 (record B bp) ∧
      (bp.c0 + bp.c1 : ScalarField) = c := by
  unfold proveBit at h
  rcases Nat.le_one_iff_eq_zero_or_eq_one.mp hbit with rfl | rfl
  · rw [if_pos rfl] at h
    rcases bind_eq_ok.mp h with ⟨c, hc, hbp⟩
    obtain rfl := pure_eq_ok.mp hbp
    rw [Nat.cast_zero, zero_add, ← smul_eq_mul] at hB
    refine ⟨_, _, c, hc, ⟨?_, ?_⟩, ?_⟩
    · rw [record, hGenerator_eq, hB, recomputeR0_ofScalar, ecc.multiply_eq, nsmul_ofScalar]
      push_cast [modOrder_cast]
      rw [SigmaOrProof.announcement_honest, smul_eq_mul]
    · rw [record, hGenerator_eq, hB, recomputeR1_ofScalar]
      simp only [ecc.multiply_eq, ecc.add_eq, ecc.neg_eq, ← ofScalar_one, ← map_neg, ← map_add,
        nsmul_ofScalar]
      rw [SigmaOrProof.announcement, sub_eq_add_neg, sub_eq_add_neg, smul_eq_mul, smul_eq_mul]
    · push_cast [modOrder_cast]
      ring
  · rw [if_neg one_ne_zero] at h
    rcases bind_eq_ok.mp h with ⟨c, hc, hbp⟩
    obtain rfl := pure_eq_ok.mp hbp
    rw [Nat.cast_one, ← smul_eq_mul] at hB
    refine ⟨_, _, c, hc, ⟨?_, ?_⟩, ?_⟩
    · rw [record, hGenerator_eq, hB, recomputeR0_ofScalar]
      simp only [ecc.multiply_eq, ecc.add_eq, ecc.neg_eq, ← map_neg, ← map_add, nsmul_ofScalar]
      rw [SigmaOrProof.announcement, sub_eq_add_neg, smul_eq_mul, smul_eq_mul]
    · rw [record, hGenerator_eq, hB, recomputeR1_ofScalar, ecc.multiply_eq, nsmul_ofScalar,
        add_sub_cancel_left]
      push_cast [modOrder_cast]
      rw [SigmaOrProof.announcement_honest, smul_eq_mul]
    · push_cast [modOrder_cast]
      ring

def proverChallenge (context : BytesN 32) (R0 R1 B : G1Point) : ScalarField :=
  match challenge sha256 R0 R1 B context with
  | .ok c => c
  | .error _ => 0

theorem differenceBit_le_one (d : ℤ) (i : ℕ) : differenceBit d i ≤ 1 := by
  unfold differenceBit
  omega

theorem bitHolds_of_proveBit {d : ℤ} {call i : ℕ} {context : BytesN 32} {bp : BitResponse}
    (h : proveBit ecc sha256 tape call (differenceBit d i) (randScalar tape i)
      (bitCommit ecc sha256 tape d i) context = .ok bp) :
    bitHolds curveOps generator (hGenerator ecc sha256) (proverChallenge sha256 context)
      (record (bitCommit ecc sha256 tape d i) bp) = true := by
  rcases proveBit_accepted ecc sha256 tape (differenceBit_le_one d i)
    (bitCommit_eq ecc sha256 tape d i) h with ⟨R0, R1, c, hc, ⟨h0, h1⟩, hsum⟩
  unfold bitHolds
  rw [h0, h1]
  have hchallenge : proverChallenge sha256 context R0 R1 (bitCommit ecc sha256 tape d i) = c := by
    rw [proverChallenge, hc]
  simp only [primeOrderOps, record, hchallenge, hsum, beq_self_eq_true]

theorem bitSumHolds_of_prover {score threshold : ℤ} (h0 : 0 ≤ threshold) (hle : threshold ≤ score)
    (hs : score ≤ MAX_SCORE) {bits : List (BitProof G1Point ScalarField)}
    (hlen : bits.length = ZkProver.NUM_BITS) (hbits : ∀ i : Fin bits.length,
      bits[i].commit = bitCommit ecc sha256 tape (score - threshold) i) :
    bitSumHolds curveOps generator (pedersenCommit ecc sha256 score (totalBlinding tape))
      (.ofNat threshold.toNat) bits = true := by
  have hsum : accumulated curveOps bits = ∑ i ∈ Finset.range ZkProver.NUM_BITS,
      2 ^ i • bitCommit ecc sha256 tape (score - threshold) i := by
    rw [accumulated_eq (by rw [hlen]; decide) fun bp _ => curveOrder_smul bp.commit, ← hlen,
      ← Fin.sum_univ_eq_sum_range]
    exact Finset.sum_congr rfl fun i _ => by rw [hbits i]
  rcases Int.eq_ofNat_of_zero_le h0 with ⟨t, rfl⟩
  have ht : t < 2 ^ 32 := by
    unfold MAX_SCORE at hs
    omega
  have htoNat : (UInt32.ofNat t).toNat = t := UInt32.toNat_ofNat_of_lt ht
  rw [bitSumHolds, hsum, sum_bitCommit ecc sha256 tape (by omega) (by omega), pedersenCommit_eq]
  simp only [primeOrderOps, decide_eq_true_eq, UInt32.toNat_toUInt64, Int.toNat_natCast, htoNat]
  rw [← ofScalar_one, val_nsmul_ofScalar, ← map_neg, ← map_add]
  congr 1
  push_cast
  ring

/-- Completeness: whatever the prover returns passes every equation of the verifier. -/
theorem generated_equationsHold {Features : Type} {dumps : CommitmentPayload Features → String}
    {wallet : String} {score threshold : ℤ} {features : Features} {salt : List UInt8}
    {g : Generated} (h : generateThresholdProof ecc sha256 tape dumps wallet score features salt
      threshold = .ok g) :
    ∃ context bitProofs,
      proofContext sha256 wallet threshold g.scoreCommit.1 g.scoreCommit.2 = .ok context ∧
      serializeProof (pedersenCommit ecc sha256 score (totalBlinding tape))
        ((List.range ZkProver.NUM_BITS).map (bitCommit ecc sha256 tape (score - threshold)))
        bitProofs = .ok g.proof ∧
      equationsHold curveOps generator (hGenerator ecc sha256) (proverChallenge sha256 context)
        (pedersenCommit ecc sha256 score (totalBlinding tape)) (.ofNat threshold.toNat)
        (List.zipWith record ((List.range ZkProver.NUM_BITS).map
          (bitCommit ecc sha256 tape (score - threshold))) bitProofs) = true := by
  rcases generate_cases ecc sha256 tape h with
    ⟨⟨-, hs⟩, h0, hle, -, context, bitProofs, hcontext, hbits, hproof⟩
  have hlen : bitProofs.length = ZkProver.NUM_BITS := by
    rw [length_of_mapM hbits, List.length_range]
  refine ⟨context, bitProofs, hcontext, hproof, ?_⟩
  rw [equationsHold, Bool.and_eq_true, List.all_eq_true]
  constructor
  · intro e he
    rcases List.getElem_of_mem he with ⟨i, hi, rfl⟩
    rw [List.length_zipWith, List.length_map, List.length_range, hlen, min_self] at hi
    have hbit := getElem_of_mapM hbits i (by rwa [List.length_range]) (by rwa [hlen])
    rw [List.getElem_range] at hbit
    rw [List.getElem_zipWith, List.getElem_map, List.getElem_range]
    exact bitHolds_of_proveBit ecc sha256 tape hbit
  · refine bitSumHolds_of_prover ecc sha256 tape h0 hle hs ?_ fun i => ?_
    · rw [List.length_zipWith, List.length_map, List.length_range, hlen, min_self]
    · rw [Fin.getElem_fin, List.getElem_zipWith, List.getElem_map, List.getElem_range]
      rfl

end Prover

end HonestTranscripts
