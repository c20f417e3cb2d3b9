import LedgerLens.Proofs.ZkProver
import LedgerLens.Proofs.ZkVerifierContract

/-!
# Submitting a prover's bytes to the verifier contract

`serialize_proof_bytes` against `deserialise_proof`: the prover writes a circuit version
after the wire version, the contract reads the fixed layout without one.
-/
namespace ProofSubmission

open ByteStrings ZkCommitment ZkProver ZkVerifierContract

def recorded (s : Storage) (wallet : String) (score : ℤ) (hash : BytesN 32) (now : UInt64)
    (g : Generated) : Storage :=
  { s with
    commitments := Function.update s.commitments ⟨wallet⟩ (some {
      commitmentHash := hash
      pedersenX := .ofNat 32 g.scoreCommit.1
      pedersenY := .ofNat 32 g.scoreCommit.2
      score := .ofNat score.toNat
      timestamp := now }) }

theorem submitScore_recorded {s : Storage} {admin : Address} (h : s.admin = some admin)
    {auth : Address → Bool} (hauth : auth admin = true) (wallet : String) (score : ℤ)
    (hash : BytesN 32) (now : UInt64) (g : Generated) :
    submitScore auth now s ⟨wallet⟩ (.ofNat score.toNat) hash (.ofNat 32 g.scoreCommit.1)
      (.ofNat 32 g.scoreCommit.2) = .ok (recorded s wallet score hash now g) := by
  simp only [submitScore, recorded, h, hauth, if_true]
  rfl

section Submit

variable (ecc : PyEcc) (sha256 : List UInt8 → BytesN 32) (tape : Tape) {Features : Type}
  (dumps : CommitmentPayload Features → String) (wallet : String) (score : ℤ)
  (features : Features) (salt : List UInt8) (threshold : ℤ) (s : Storage) (hash : BytesN 32)
  (now : UInt64)

/-- Prove, serialise, record the commitment, verify on chain. -/
def submitProof : Except PyError (Except Trap Bool) := do
  let g ← generateThresholdProof ecc sha256 tape dumps wallet score features salt threshold
  let proof ← serializeProofBytes g.proof
  return verifyThreshold sha256 (recorded s wallet score hash now g) ⟨wallet⟩
    (.ofNat threshold.toNat) proof

theorem verifyThreshold_of_length {proof : List UInt8}
    (h : proof.length ≠ ZkVerifierContract.PROOF_WIRE_LEN) (s : Storage) (wallet : Address)
    (threshold : UInt32) : verifyThreshold sha256 s wallet threshold proof = .ok false := by
  have hnone : deserialiseProof proof = none := by rw [deserialiseProof, if_pos h]
  unfold verifyThreshold
  split
  · rfl
  · rw [hnone]
    rfl

/-- One byte too many: no generated proof survives the contract's length check. -/
theorem every_submission_rejected :
    submitProof ecc sha256 tape dumps wallet score features salt threshold s hash now =
      (generateThresholdProof ecc sha256 tape dumps wallet score features salt threshold).map
        fun _ => .ok false := by
  unfold submitProof
  cases hg : generateThresholdProof ecc sha256 tape dumps wallet score features salt threshold with
  | error e => rfl
  | ok g =>
    obtain ⟨proof, hproof, hlen⟩ := serializeProofBytes_ok (generate_inRange ecc sha256 tape hg)
    have hne : proof.length ≠ ZkVerifierContract.PROOF_WIRE_LEN := by
      rw [hlen]
      decide
    change Except.bind (serializeProofBytes g.proof) _ = Except.ok (Except.ok false)
    have hfalse := verifyThreshold_of_length sha256 hne (recorded s wallet score hash now g)
      ⟨wallet⟩ (.ofNat threshold.toNat)
    simp only [hproof, Except.bind, hfalse]
    rfl

end Submit

def ContractAcceptsProver (sha256 : List UInt8 → BytesN 32) : Prop :=
  ∀ (ecc : PyEcc) (tape : Tape) (Features : Type) (dumps : CommitmentPayload Features → String)
    (wallet : String) (score : ℤ) (features : Features) (salt : List UInt8) (threshold : ℤ)
    (s : Storage) (hash : BytesN 32) (now : UInt64) (g : Generated),
    generateThresholdProof ecc sha256 tape dumps wallet score features salt threshold = .ok g →
    submitProof ecc sha256 tape dumps wallet score features salt threshold s hash now =
      .ok (.ok true)

/-- A score of ninety proved against seventy, with the deployed hash. -/
theorem deployed_contract_rejects_prover : ¬ ContractAcceptsProver Sha256.sha256 := by
  intro haccepts
  obtain ⟨g, hg⟩ := uniform_generate_ok PyEcc.groupLaw label_scalar_ne_zero
    (fun _ : CommitmentPayload Unit => "{}") "GWALLET" () []
    (by decide : (0 : ℤ) ≤ 70) (by decide : (70 : ℤ) ≤ 90) (by decide)
  have htrue := haccepts _ _ _ _ _ _ _ _ _ ⟨none, fun _ => none⟩ (.ofNat 32 0) 0 g hg
  rw [every_submission_rejected, hg] at htrue
  exact absurd htrue (by simp [Except.map])

end ProofSubmission
