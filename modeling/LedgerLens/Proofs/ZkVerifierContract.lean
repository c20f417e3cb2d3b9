import LedgerLens.Proofs.ThresholdVerifier
import LedgerLens.Proofs.ZkVerifierCurve

/-!
# The zero-knowledge verifier contract

`contracts/zk_verifier/src/lib.rs`: the stored commitments, the wire format and the two
verification entry points. The host hash is a parameter, and a panic is a trap that
undoes the call.
-/
namespace ZkVerifierContract

open ByteStrings ZkVerifierWords ZkVerifierCurve ThresholdVerifier

structure Address where
  strkey : String
  deriving DecidableEq, Repr

/-- `Address::to_string` as bytes. -/
def Address.toBytes (a : Address) : List UInt8 := a.strkey.toUTF8.toList

structure ScoreCommitment where
  commitmentHash : BytesN 32
  pedersenX : BytesN 32
  pedersenY : BytesN 32
  score : UInt32
  timestamp : UInt64

structure Storage where
  admin : Option Address
  commitments : Address → Option ScoreCommitment

inductive Trap where
  | notInitialized
  | alreadyInitialized
  | unauthorized
  | strkeyExceedsContextBuffer
  deriving DecidableEq, Repr

def initializeContract (s : Storage) (admin : Address) : Except Trap Storage :=
  if s.admin.isSome then throw .alreadyInitialized
  else pure { s with admin := some admin }

/-- Only the stored administrator's signature passes `require_stored_admin`. -/
def submitScore (requireAuth : Address → Bool) (now : UInt64) (s : Storage) (wallet : Address)
    (score : UInt32) (commitmentHash pedersenX pedersenY : BytesN 32) : Except Trap Storage :=
  match s.admin with
  | none => throw .notInitialized
  | some admin =>
    if requireAuth admin then
      pure { s with
        commitments := Function.update s.commitments wallet
          (some ⟨commitmentHash, pedersenX, pedersenY, score, now⟩) }
    else throw .unauthorized

inductive Call where
  | initializeContract (admin : Address)
  | submitScore (now : UInt64) (wallet : Address) (score : UInt32)
      (commitmentHash pedersenX pedersenY : BytesN 32)

def step (requireAuth : Address → Bool) (s : Storage) : Call → Except Trap Storage
  | .initializeContract admin => initializeContract s admin
  | .submitScore now wallet score hash x y => submitScore requireAuth now s wallet score hash x y

inductive Reachable : Storage → Prop where
  | deployed : Reachable ⟨none, fun _ => none⟩
  | call {s t : Storage} (auth : Address → Bool) (c : Call) :
      Reachable s → step auth s c = .ok t → Reachable t

def PROOF_WIRE_VERSION : UInt8 := 1
def BIT_RECORD_LEN : ℕ := 6 * 32
def PROOF_WIRE_LEN : ℕ := 1 + 2 * 32 + NUM_BITS * BIT_RECORD_LEN

structure ProofData where
  scoreCommit : Point
  bits : Vector (BitProof Point Fr) NUM_BITS

def readBit (proof : List UInt8) (base : ℕ) : Option (BitProof Point Fr) := do
  let read32 := BytesN.slice 32 proof
  let commit ← Point.fromAffineChecked (.fromBeBytes (read32 base))
    (.fromBeBytes (read32 (base + 32)))
  return {
    commit
    c0 := .fromBeBytes (read32 (base + 64))
    c1 := .fromBeBytes (read32 (base + 96))
    s0 := .fromBeBytes (read32 (base + 128))
    s1 := .fromBeBytes (read32 (base + 160)) }

def deserialiseProof (proof : List UInt8) : Option ProofData :=
  if proof.length ≠ PROOF_WIRE_LEN then none
  else if proof.head? ≠ some PROOF_WIRE_VERSION then none
  else do
    let read32 := BytesN.slice 32 proof
    let scoreCommit ← Point.fromAffineChecked (.fromBeBytes (read32 1)) (.fromBeBytes (read32 33))
    let bits ← (Vector.range NUM_BITS).mapM fun i => readBit proof (65 + i * BIT_RECORD_LEN)
    return { scoreCommit, bits }

section Verify

variable (sha256 : List UInt8 → BytesN 32)

/-- `SHA256(strkey || threshold as u8 || pedersen_x || pedersen_y)`. -/
def proofContext (wallet : Address) (threshold : UInt32) (pedersenX pedersenY : BytesN 32) :
    Except Trap (BytesN 32) :=
  if 64 < wallet.toBytes.length then throw .strkeyExceedsContextBuffer
  else pure (sha256 (wallet.toBytes ++ [threshold.toUInt8] ++ pedersenX.bytes ++ pedersenY.bytes))

def appendPoint (msg : List UInt8) (p : Point) : List UInt8 :=
  let a := p.toAffine
  msg ++ a.1.toBeBytes.bytes ++ a.2.toBeBytes.bytes

def fiatShamir (context : BytesN 32) (r0 r1 b : Point) : Fr :=
  let msg := "LedgerLens/zk/v1".toUTF8.toList
  let msg := appendPoint (appendPoint (appendPoint msg r0) r1) b
  .fromBeBytes (sha256 (msg ++ context.bytes))

/-- The Jacobian arithmetic behind the verifier's calls. -/
def pointOps : GroupOps Point Fr where
  infinity := .infinity
  add := .add
  neg := .neg
  mulScalar := .mulScalar
  eq := Point.eq
  scalarAdd := .add
  scalarEq := Fr.eq
  scalarOfU64 := .fromU64

def verifyThreshold (s : Storage) (wallet : Address) (threshold : UInt32)
    (proof : List UInt8) : Except Trap Bool :=
  match s.commitments wallet with
  | none => pure false
  | some entry =>
    match deserialiseProof proof with
    | none => pure false
    | some proofData =>
      match Point.fromAffineChecked (.fromBeBytes entry.pedersenX)
          (.fromBeBytes entry.pedersenY) with
      | none => pure false
      | some storedP =>
        if !proofData.scoreCommit.eq storedP then pure false
        else do
          let context ← proofContext sha256 wallet threshold entry.pedersenX entry.pedersenY
          return equationsHold pointOps .generator (.hGenerator sha256)
            (fiatShamir sha256 context) storedP threshold proofData.bits.toList

end Verify

def getFq (proof : List UInt8) (offset : ℕ) : Option Fq :=
  if proof.length < offset + 32 then none
  else some (.fromBeBytes (.slice 32 proof offset))

def verifySnarkBelowThreshold (s : Storage) (wallet : Address) (threshold : UInt32)
    (proof : List UInt8) : Bool :=
  if proof.length ≠ 256 then false
  else
    match s.commitments wallet with
    | none => false
    | some entry =>
      let parsed := do
        let aX ← getFq proof 0
        let aY ← getFq proof 32
        let bX0 ← getFq proof 64
        let bX1 ← getFq proof 96
        let bY0 ← getFq proof 128
        let bY1 ← getFq proof 160
        let cX ← getFq proof 192
        let cY ← getFq proof 224
        some (aX, aY, bX0, bX1, bY0, bY1, cX, cY)
      match parsed with
      | none => false
      | some (aX, aY, bX0, bX1, bY0, bY1, cX, cY) =>
        if !aX.isValid || !aY.isValid || !bX0.isValid || !bX1.isValid ||
            !bY0.isValid || !bY1.isValid || !cX.isValid || !cY.isValid then false
        else
          let pX := Fq.fromBeBytes entry.pedersenX
          let pY := Fq.fromBeBytes entry.pedersenY
          if aX ≠ pX || aY ≠ pY then false
          else if cX ≠ .fromU64 threshold.toUInt64 then false
          else if bX0.isZero then false
          else true

/-- Eight consecutive words, as the entry point reads them. -/
def wordsProof (words : List (BytesN 32)) : List UInt8 := words.flatMap (·.bytes)

theorem length_wordsProof (words : List (BytesN 32)) :
    (wordsProof words).length = 32 * words.length := by
  simp [wordsProof, List.length_flatMap, BytesN.length_eq, mul_comm]

theorem slice_wordsProof (front : List UInt8) (words : List (BytesN 32)) (i : ℕ)
    (h : i < words.length) :
    BytesN.slice 32 (front ++ wordsProof words) (front.length + 32 * i) = words[i] := by
  have hsplit : front ++ wordsProof words = (front ++ wordsProof (words.take i)) ++
      (words[i].bytes ++ wordsProof (words.drop (i + 1))) := by
    rw [List.append_assoc]
    congr 1
    calc wordsProof words = wordsProof (words.take i ++ words[i] :: words.drop (i + 1)) := by
          rw [List.getElem_cons_drop, List.take_append_drop]
      _ = _ := by simp only [wordsProof, List.flatMap_append, List.flatMap_cons]
  have hpre : (front ++ wordsProof (words.take i)).length = front.length + 32 * i := by
    rw [List.length_append, length_wordsProof, List.length_take, min_eq_left h.le]
  rw [hsplit, ← hpre, slice_append]

theorem getFq_wordsProof (words : List (BytesN 32)) (i : ℕ) (h : i < words.length) :
    getFq (wordsProof words) (32 * i) = some (.fromBeBytes words[i]) := by
  have hlen : 32 * i + 32 ≤ (wordsProof words).length := by
    rw [length_wordsProof]
    omega
  have hslice := slice_wordsProof [] words i h
  rw [List.nil_append, List.length_nil, Nat.zero_add] at hslice
  rw [getFq, if_neg (by omega), hslice]

def publicWords (entry : ScoreCommitment) (threshold : UInt32) : List (BytesN 32) :=
  [entry.pedersenX, entry.pedersenY, .ofNat 32 1, .ofNat 32 0, .ofNat 32 0, .ofNat 32 0,
    .ofNat 32 threshold.toNat, .ofNat 32 0]

theorem publicWords_accepted {s : Storage} {wallet : Address} {entry : ScoreCommitment}
    (h : s.commitments wallet = some entry) (threshold : UInt32) :
    verifySnarkBelowThreshold s wallet threshold (wordsProof (publicWords entry threshold)) =
      true := by
  have hone : (Fq.fromBeBytes (.ofNat 32 1)).isZero = false := by decide
  have hlen : (wordsProof (publicWords entry threshold)).length = 256 := length_wordsProof _
  have hget (i : ℕ) (hi : i < 8) := getFq_wordsProof (publicWords entry threshold) i hi
  have h0 := hget 0 (by decide)
  have h1 := hget 1 (by decide)
  have h2 := hget 2 (by decide)
  have h3 := hget 3 (by decide)
  have h4 := hget 4 (by decide)
  have h5 := hget 5 (by decide)
  have h6 := hget 6 (by decide)
  have h7 := hget 7 (by decide)
  have hthreshold : Fq.fromBeBytes (.ofNat 32 threshold.toNat) = .fromU64 threshold.toUInt64 :=
    fromBeBytes_ofNat threshold.toUInt64
  simp only [Nat.reduceMul] at h0 h1 h2 h3 h4 h5 h6 h7
  simp only [verifySnarkBelowThreshold, hlen, h, h0, h1, h2, h3, h4, h5, h6, h7,
    Option.bind_eq_bind, Option.bind_some, fromBeBytes_isValid]
  simp [publicWords, hthreshold, hone]

theorem accepted_is_stored {s : Storage} {wallet : Address} {threshold : UInt32}
    {proof : List UInt8} (h : verifySnarkBelowThreshold s wallet threshold proof = true) :
    ∃ entry, s.commitments wallet = some entry := by
  unfold verifySnarkBelowThreshold at h
  split at h
  · cases h
  · split at h
    · cases h
    · exact ⟨_, ‹_›⟩

def SnarkSoundAt (committed : ScoreCommitment → ℕ) (s : Storage) (wallet : Address)
    (threshold : UInt32) : Prop :=
  ∀ proof, verifySnarkBelowThreshold s wallet threshold proof = true →
    ∃ entry, s.commitments wallet = some entry ∧ threshold.toNat ≤ committed entry

theorem snarkSoundAt_iff (committed : ScoreCommitment → ℕ) (s : Storage) (wallet : Address)
    (threshold : UInt32) : SnarkSoundAt committed s wallet threshold ↔
      ∀ entry, s.commitments wallet = some entry → threshold.toNat ≤ committed entry := by
  constructor
  · intro hs entry hentry
    obtain ⟨e, he, hle⟩ := hs _ (publicWords_accepted hentry threshold)
    rw [hentry] at he
    exact Option.some.inj he ▸ hle
  · intro hle proof hproof
    obtain ⟨entry, hentry⟩ := accepted_is_stored hproof
    exact ⟨entry, hentry, hle entry hentry⟩

/-- The check is sound for a wallet only while no forgery is possible at all: nothing is
stored for it, or its committed score reaches the largest threshold there is. -/
theorem snark_sound_iff (committed : ScoreCommitment → ℕ) (s : Storage) (wallet : Address) :
    (∀ threshold, SnarkSoundAt committed s wallet threshold) ↔
      ∀ entry, s.commitments wallet = some entry → 2 ^ 32 - 1 ≤ committed entry := by
  simp only [snarkSoundAt_iff]
  constructor
  · intro h entry hentry
    exact h (.ofNat (2 ^ 32 - 1)) entry hentry
  · intro h threshold entry hentry
    have hlt := threshold.toNat_lt
    have hle := h entry hentry
    omega

/-- A stored score of fifty is accepted against a threshold of one hundred. -/
theorem deployed_snark_forgery : ¬ ∀ s, Reachable s → ∀ wallet threshold,
    SnarkSoundAt (·.score.toNat) s wallet threshold := by
  intro hsound
  let admin : Address := ⟨"GADMIN"⟩
  let wallet : Address := ⟨"GWALLET"⟩
  let word : BytesN 32 := .ofNat 32 7
  have hadmin : Reachable ⟨some admin, fun _ => none⟩ :=
    Reachable.deployed.call (fun _ => true) (.initializeContract admin) rfl
  have hstored := hadmin.call (fun _ => true) (.submitScore 0 wallet 50 word word word) rfl
  have hle := (snarkSoundAt_iff _ _ _ _).mp (hsound _ hstored wallet 100)
    ⟨word, word, word, 50, 0⟩ (by simp)
  exact absurd hle (by decide)

end ZkVerifierContract
