import LedgerLens.FallibleRuns
import LedgerLens.Proofs.ZkCommitment

/-!
# The threshold prover

`detection/zk_prover.py`: bit decomposition, the Sigma OR-proofs and the byte format of
a proof. Randomness is a tape of 32-byte draws, read in the order of the calls.
-/
namespace ZkProver

open Bn254 ByteStrings ZkCommitment FallibleRuns
open scoped JacobianCoordinates

def MAX_SCORE : ℤ := 100
def NUM_BITS : ℕ := 7
def PROOF_WIRE_VERSION : UInt8 := 1
def CIRCUIT_VERSION : ℤ := 1
def BIT_RECORD_LEN : ℕ := 6 * 32
def PROOF_WIRE_LEN : ℕ := 1 + 1 + 2 * 32 + NUM_BITS * BIT_RECORD_LEN

/-- `os.urandom(32)`, or `getrandbits(256)` of a seeded generator, call by call. -/
abbrev Tape := ℕ → BytesN 32

def randScalar (tape : Tape) (call : ℕ) : ℕ := ofBigEndian (tape call).bytes % curveOrder

/-- `int.to_bytes(n, "big")`. -/
def toBytes (n : ℕ) (v : ℤ) : Except PyError (List UInt8) :=
  if 0 ≤ v ∧ v < 256 ^ n then pure (toBigEndian n v.toNat) else throw .overflowError

structure BitResponse where
  c0 : ℕ
  c1 : ℕ
  s0 : ℕ
  s1 : ℕ
  deriving DecidableEq, Repr

structure BitEntry extends BitResponse where
  commitX : ℕ
  commitY : ℕ
  deriving DecidableEq, Repr

/-- The proof dictionary; only `circuit_version` is read with a default. -/
structure ProofDict where
  circuitVersion : Option ℤ
  scoreCommitX : ℕ
  scoreCommitY : ℕ
  bits : List BitEntry
  deriving DecidableEq, Repr

structure Generated where
  commitment : String
  scoreCommit : ℕ × ℕ
  proof : ProofDict
  deriving DecidableEq, Repr

section Transcript

variable (sha256 : List UInt8 → BytesN 32)

def pointBytes (P : G1Point) : Except PyError (List UInt8) := do
  let (x, y) ← serializePoint P
  return (← toBytes 32 x) ++ (← toBytes 32 y)

def fiatShamir (parts : List (List UInt8)) : ℕ :=
  ofBigEndian (sha256 (encode "LedgerLens/zk/v1" ++ parts.flatten)).bytes % curveOrder

def challenge (R0 R1 B : G1Point) (context : BytesN 32) : Except PyError ℕ := do
  let r0 ← pointBytes R0
  let r1 ← pointBytes R1
  let b ← pointBytes B
  return fiatShamir sha256 [r0, r1, b, context.bytes]

def proofContext (wallet : String) (threshold : ℤ) (x y : ℕ) : Except PyError (BytesN 32) := do
  let t ← toBytes 1 threshold
  let v ← toBytes 1 CIRCUIT_VERSION
  return sha256 (encode wallet ++ t ++ v ++ (← toBytes 32 x) ++ (← toBytes 32 y))

end Transcript

variable (ecc : PyEcc) (sha256 : List UInt8 → BytesN 32) (tape : Tape)

/-- The simulated branch draws its challenge and response, the real one answers the hash.
The fourth draw of either branch is overwritten. -/
def proveBit (call bit blinding : ℕ) (B : G1Point) (context : BytesN 32) :
    Except PyError BitResponse :=
  let H := hGenerator ecc sha256
  if bit = 0 then do
    let c1 := randScalar tape call
    let s1 := randScalar tape (call + 1)
    let t0 := randScalar tape (call + 2)
    let R0 := ecc.multiply H t0
    let bMinusG := ecc.add B (ecc.neg generator)
    let R1 := ecc.add (ecc.multiply H s1) (ecc.neg (ecc.multiply bMinusG c1))
    let c ← challenge sha256 R0 R1 B context
    let c0 := modOrder (c - c1)
    return { c0, c1, s0 := modOrder (t0 + c0 * blinding), s1 }
  else do
    let c0 := randScalar tape call
    let s0 := randScalar tape (call + 1)
    let t1 := randScalar tape (call + 2)
    let R0 := ecc.add (ecc.multiply H s0) (ecc.neg (ecc.multiply B c0))
    let R1 := ecc.multiply H t1
    let c ← challenge sha256 R0 R1 B context
    let c1 := modOrder (c - c0)
    return { c0, c1, s0, s1 := modOrder (t1 + c1 * blinding) }

/-- `(d >> i) & 1`. -/
def differenceBit (d : ℤ) (i : ℕ) : ℕ := ((d >>> i) % 2).toNat

def bitCommit (d : ℤ) (i : ℕ) : G1Point :=
  ecc.add (ecc.multiply generator (differenceBit d i))
    (ecc.multiply (hGenerator ecc sha256) (randScalar tape i))

/-- `Σ 2^i * r_i`. -/
def totalBlinding : ℕ :=
  ((List.range NUM_BITS).map fun i => 2 ^ i * randScalar tape i).sum % curveOrder

def bitEntry (B : G1Point) (bp : BitResponse) : Except PyError BitEntry := do
  let (commitX, commitY) ← serializePoint B
  return { toBitResponse := bp, commitX, commitY }

def serializeProof (scoreCommit : G1Point) (bitCommits : List G1Point)
    (bitProofs : List BitResponse) : Except PyError ProofDict := do
  let (scoreCommitX, scoreCommitY) ← serializePoint scoreCommit
  let bits ← (bitCommits.zip bitProofs).mapM fun (B, bp) => bitEntry B bp
  return { circuitVersion := some CIRCUIT_VERSION, scoreCommitX, scoreCommitY, bits }

def generateThresholdProof {Features : Type} (dumps : CommitmentPayload Features → String)
    (wallet : String) (score : ℤ) (features : Features) (salt : List UInt8) (threshold : ℤ) :
    Except PyError Generated :=
  if ¬ (0 ≤ score ∧ score ≤ MAX_SCORE) then
    throw (.proofError s!"Score must be 0-{MAX_SCORE}, got {score}")
  else if threshold < 0 then throw (.proofError "Threshold must be non-negative")
  else if score < threshold then
    throw (.proofError "Cannot generate proof: score below threshold")
  else do
    let d := score - threshold
    let bitCommits := (List.range NUM_BITS).map (bitCommit ecc sha256 tape d)
    let P := pedersenCommit ecc sha256 score (totalBlinding tape)
    let (x, y) ← serializePoint P
    let context ← proofContext sha256 wallet threshold x y
    let bitProofs ← (List.range NUM_BITS).mapM fun i =>
      proveBit ecc sha256 tape (NUM_BITS + 4 * i) (differenceBit d i) (randScalar tape i)
        (bitCommit ecc sha256 tape d i) context
    let commitment := scoreCommitment sha256 dumps salt ⟨wallet, score, features, x, y⟩
    let proof ← serializeProof P bitCommits bitProofs
    return { commitment, scoreCommit := (x, y), proof }

def serializeEntry (e : BitEntry) : Except PyError (List UInt8) := do
  return (← toBytes 32 e.commitX) ++ (← toBytes 32 e.commitY) ++ (← toBytes 32 e.c0) ++
    (← toBytes 32 e.c1) ++ (← toBytes 32 e.s0) ++ (← toBytes 32 e.s1)

def serializeProofBytes (proof : ProofDict) : Except PyError (List UInt8) :=
  let circuitVersion := proof.circuitVersion.getD CIRCUIT_VERSION
  if ¬ (0 ≤ circuitVersion ∧ circuitVersion ≤ 0xFF) then
    throw (.proofError s!"circuit_version out of range: {circuitVersion}")
  else do
    let x ← toBytes 32 proof.scoreCommitX
    let y ← toBytes 32 proof.scoreCommitY
    let bits ← proof.bits.mapM serializeEntry
    return [PROOF_WIRE_VERSION, UInt8.ofNat circuitVersion.toNat] ++ x ++ y ++ bits.flatten

theorem randScalar_lt (call : ℕ) : randScalar tape call < curveOrder :=
  Nat.mod_lt _ (by norm_num)

theorem toBytes_natCast {n v : ℕ} (h : v < 256 ^ n) : toBytes n v = .ok (toBigEndian n v) := by
  have hv : (v : ℤ) < 256 ^ n := by exact_mod_cast h
  rw [toBytes, if_pos ⟨Int.natCast_nonneg v, hv⟩, Int.toNat_natCast]
  rfl

structure BitResponse.InRange (bp : BitResponse) : Prop where
  c0_lt : bp.c0 < 256 ^ 32
  c1_lt : bp.c1 < 256 ^ 32
  s0_lt : bp.s0 < 256 ^ 32
  s1_lt : bp.s1 < 256 ^ 32

structure BitEntry.InRange (e : BitEntry) : Prop extends BitResponse.InRange e.toBitResponse where
  commitX_lt : e.commitX < 256 ^ 32
  commitY_lt : e.commitY < 256 ^ 32

/-- A dictionary of the shape the prover emits. -/
structure ProofDict.InRange (proof : ProofDict) : Prop where
  circuitVersion_eq : proof.circuitVersion = some CIRCUIT_VERSION
  scoreCommitX_lt : proof.scoreCommitX < 256 ^ 32
  scoreCommitY_lt : proof.scoreCommitY < 256 ^ 32
  length_bits : proof.bits.length = NUM_BITS
  bits_inRange : ∀ e ∈ proof.bits, e.InRange

theorem curveOrder_lt_word {v : ℕ} (h : v < curveOrder) : v < 256 ^ 32 :=
  h.trans (by norm_num)

theorem fieldModulus_lt_word {v : ℕ} (h : v < fieldModulus) : v < 256 ^ 32 :=
  h.trans (by norm_num)

theorem proveBit_inRange {call bit blinding : ℕ} {B : G1Point} {context : BytesN 32}
    {bp : BitResponse} (h : proveBit ecc sha256 tape call bit blinding B context = .ok bp) :
    bp.InRange := by
  have draw (i : ℕ) := curveOrder_lt_word (randScalar_lt tape i)
  have reduced (v : ℤ) := curveOrder_lt_word (modOrder_lt v)
  unfold proveBit at h
  split at h
  · rcases bind_eq_ok.mp h with ⟨c, -, hbp⟩
    obtain rfl := pure_eq_ok.mp hbp
    exact ⟨reduced _, draw _, by dsimp only; exact reduced _, draw _⟩
  · rcases bind_eq_ok.mp h with ⟨c, -, hbp⟩
    obtain rfl := pure_eq_ok.mp hbp
    exact ⟨draw _, reduced _, draw _, by dsimp only; exact reduced _⟩

theorem bitEntry_inRange {B : G1Point} {bp : BitResponse} {e : BitEntry} (hbp : bp.InRange)
    (h : bitEntry B bp = .ok e) : e.InRange := by
  rcases bind_eq_ok.mp h with ⟨⟨x, y⟩, hxy, he⟩
  obtain rfl := pure_eq_ok.mp he
  have hlt := serializePoint_lt hxy
  exact ⟨hbp, fieldModulus_lt_word hlt.1, fieldModulus_lt_word hlt.2⟩

theorem serializeProof_inRange {P : G1Point} {Bs : List G1Point} {bps : List BitResponse}
    {proof : ProofDict} (hBs : Bs.length = NUM_BITS) (hlen : bps.length = NUM_BITS)
    (hbps : ∀ bp ∈ bps, bp.InRange) (h : serializeProof P Bs bps = .ok proof) :
    proof.InRange := by
  rcases bind_eq_ok.mp h with ⟨⟨x, y⟩, hxy, h⟩
  rcases bind_eq_ok.mp h with ⟨bits, hbits, hproof⟩
  obtain rfl := pure_eq_ok.mp hproof
  refine ⟨rfl, fieldModulus_lt_word (serializePoint_lt hxy).1,
    fieldModulus_lt_word (serializePoint_lt hxy).2, ?_, ?_⟩
  · rw [length_of_mapM hbits, List.length_zip, hBs, hlen, min_self]
  · intro e he
    rcases mem_of_mapM hbits he with ⟨⟨B, bp⟩, hmem, hentry⟩
    exact bitEntry_inRange (hbps bp (List.of_mem_zip hmem).2) hentry

section Generate

variable {Features : Type} {dumps : CommitmentPayload Features → String} {wallet : String}
  {score threshold : ℤ} {features : Features} {salt : List UInt8} {g : Generated}

/-- Everything a successful run has done, in order. -/
theorem generate_cases (h : generateThresholdProof ecc sha256 tape dumps wallet score features
      salt threshold = .ok g) :
    (0 ≤ score ∧ score ≤ MAX_SCORE) ∧ 0 ≤ threshold ∧ threshold ≤ score ∧
    serializePoint (pedersenCommit ecc sha256 score (totalBlinding tape)) = .ok g.scoreCommit ∧
    ∃ context bitProofs,
      proofContext sha256 wallet threshold g.scoreCommit.1 g.scoreCommit.2 = .ok context ∧
      (List.range NUM_BITS).mapM (fun i => proveBit ecc sha256 tape (NUM_BITS + 4 * i)
        (differenceBit (score - threshold) i) (randScalar tape i)
        (bitCommit ecc sha256 tape (score - threshold) i) context) = .ok bitProofs ∧
      serializeProof (pedersenCommit ecc sha256 score (totalBlinding tape))
        ((List.range NUM_BITS).map (bitCommit ecc sha256 tape (score - threshold)))
        bitProofs = .ok g.proof := by
  rcases guard_eq_ok.mp h with ⟨hscore, h⟩
  rcases guard_eq_ok.mp h with ⟨hneg, h⟩
  rcases guard_eq_ok.mp h with ⟨hle, h⟩
  rcases bind_eq_ok.mp h with ⟨⟨x, y⟩, hxy, h⟩
  rcases bind_eq_ok.mp h with ⟨context, hcontext, h⟩
  rcases bind_eq_ok.mp h with ⟨bitProofs, hbits, h⟩
  rcases bind_eq_ok.mp h with ⟨proof, hproof, hg⟩
  obtain rfl := pure_eq_ok.mp hg
  exact ⟨not_not.mp hscore, not_lt.mp hneg, not_lt.mp hle, hxy, context, bitProofs, hcontext,
    hbits, hproof⟩

theorem generate_inRange (h : generateThresholdProof ecc sha256 tape dumps wallet score features
    salt threshold = .ok g) : g.proof.InRange := by
  rcases generate_cases ecc sha256 tape h with ⟨-, -, -, -, context, bitProofs, -, hbits, hproof⟩
  refine serializeProof_inRange (by simp) (by rw [length_of_mapM hbits, List.length_range])
    (fun bp hbp => ?_) hproof
  rcases mem_of_mapM hbits hbp with ⟨i, -, hi⟩
  exact proveBit_inRange ecc sha256 tape hi

/-- Entry `i` of a generated proof carries the coordinates of the `i`-th commitment. -/
theorem generate_bits (h : generateThresholdProof ecc sha256 tape dumps wallet score features
    salt threshold = .ok g) {i : ℕ} (hi : i < NUM_BITS) : ∃ hb : i < g.proof.bits.length,
    serializePoint (bitCommit ecc sha256 tape (score - threshold) i) =
      .ok (g.proof.bits[i].commitX, g.proof.bits[i].commitY) := by
  rcases generate_cases ecc sha256 tape h with ⟨-, -, -, -, context, bitProofs, -, hbits, hproof⟩
  have hlen : bitProofs.length = NUM_BITS := by rw [length_of_mapM hbits, List.length_range]
  rcases bind_eq_ok.mp hproof with ⟨⟨x, y⟩, hxy, hproof⟩
  rcases bind_eq_ok.mp hproof with ⟨entries, hentries, hproof⟩
  rw [← pure_eq_ok.mp hproof]
  have hzip : i < (((List.range NUM_BITS).map (bitCommit ecc sha256 tape (score - threshold))).zip
      bitProofs).length := by simp [hlen, hi]
  have hb : i < entries.length := length_of_mapM hentries ▸ hzip
  have hentry := getElem_of_mapM hentries i hzip hb
  rw [List.getElem_zip, List.getElem_map, List.getElem_range] at hentry
  rcases bind_eq_ok.mp hentry with ⟨⟨u, v⟩, huv, he⟩
  exact ⟨hb, by rw [huv, ← pure_eq_ok.mp he]⟩

/-- With `H` at infinity the first announcement has no coordinates. -/
theorem generate_of_label_zero (h : hScalar sha256 = 0) :
    generateThresholdProof ecc sha256 tape dumps wallet score features salt threshold ≠ .ok g := by
  intro hg
  rcases generate_cases ecc sha256 tape hg with ⟨-, -, -, -, context, bitProofs, -, hbits, -⟩
  have hH (k : ℕ) : ecc.multiply (hGenerator ecc sha256) k = 0 := by
    rw [ecc.multiply_eq, hGenerator_eq, h, Nat.cast_zero, map_zero, nsmul_zero]
  have hfirst := getElem_of_mapM hbits 0 (by simp [NUM_BITS])
    (by rw [length_of_mapM hbits]; simp [NUM_BITS])
  unfold proveBit at hfirst
  split at hfirst
  · rcases bind_eq_ok.mp hfirst with ⟨c, hc, -⟩
    rcases bind_eq_ok.mp hc with ⟨r0, hr0, -⟩
    rw [hH] at hr0
    cases hr0
  · rcases bind_eq_ok.mp hfirst with ⟨c, hc, -⟩
    rcases bind_eq_ok.mp hc with ⟨r0, -, hc⟩
    rcases bind_eq_ok.mp hc with ⟨r1, hr1, -⟩
    rw [hH] at hr1
    cases hr1

end Generate

theorem serializeEntry_ok {e : BitEntry} (h : e.InRange) : serializeEntry e = .ok
    (toBigEndian 32 e.commitX ++ toBigEndian 32 e.commitY ++ toBigEndian 32 e.c0 ++
      toBigEndian 32 e.c1 ++ toBigEndian 32 e.s0 ++ toBigEndian 32 e.s1) := by
  simp only [serializeEntry, toBytes_natCast h.commitX_lt, toBytes_natCast h.commitY_lt,
    toBytes_natCast h.c0_lt, toBytes_natCast h.c1_lt, toBytes_natCast h.s0_lt,
    toBytes_natCast h.s1_lt]
  rfl

theorem length_serializeEntry {e : BitEntry} (h : e.InRange) {out : List UInt8}
    (hout : serializeEntry e = .ok out) : out.length = BIT_RECORD_LEN := by
  rw [serializeEntry_ok h] at hout
  rw [← Except.ok.inj hout]
  simp only [List.length_append, length_toBigEndian]
  rfl

theorem serializeProofBytes_ok {proof : ProofDict} (h : proof.InRange) :
    ∃ out, serializeProofBytes proof = .ok out ∧ out.length = PROOF_WIRE_LEN := by
  obtain ⟨bits, hbits⟩ := mapM_succeeds fun e he =>
    ⟨_, serializeEntry_ok (h.bits_inRange e he)⟩
  have hrecord : ∀ b ∈ bits, b.length = BIT_RECORD_LEN := by
    intro b hb
    rcases mem_of_mapM hbits hb with ⟨e, he, hentry⟩
    exact length_serializeEntry (h.bits_inRange e he) hentry
  have hflat : bits.flatten.length = NUM_BITS * BIT_RECORD_LEN := by
    rw [List.length_flatten, List.map_congr_left hrecord, List.map_const', List.sum_replicate,
      length_of_mapM hbits, h.length_bits, smul_eq_mul]
  refine ⟨[PROOF_WIRE_VERSION, UInt8.ofNat CIRCUIT_VERSION.toNat] ++
    toBigEndian 32 proof.scoreCommitX ++ toBigEndian 32 proof.scoreCommitY ++ bits.flatten, ?_, ?_⟩
  · simp only [serializeProofBytes, h.circuitVersion_eq, Option.getD_some,
      toBytes_natCast h.scoreCommitX_lt, toBytes_natCast h.scoreCommitY_lt, hbits]
    rfl
  · simp only [List.length_append, length_toBigEndian, hflat]
    rfl

theorem pointBytes_ok {P : G1Point} (h : P ≠ 0) : ∃ bytes, pointBytes P = .ok bytes := by
  rcases serializePoint_ok h with ⟨x, y, hxy⟩
  have hlt := serializePoint_lt hxy
  refine ⟨toBigEndian 32 x ++ toBigEndian 32 y, bind_eq_ok.mpr ⟨(x, y), hxy, ?_⟩⟩
  simp only [toBytes_natCast (fieldModulus_lt_word hlt.1),
    toBytes_natCast (fieldModulus_lt_word hlt.2)]
  rfl

theorem challenge_ok {R0 R1 B : G1Point} (h0 : R0 ≠ 0) (h1 : R1 ≠ 0) (hB : B ≠ 0)
    (context : BytesN 32) : ∃ c, challenge sha256 R0 R1 B context = .ok c := by
  rcases pointBytes_ok h0 with ⟨r0, hr0⟩
  rcases pointBytes_ok h1 with ⟨r1, hr1⟩
  rcases pointBytes_ok hB with ⟨b, hb⟩
  refine ⟨fiatShamir sha256 [r0, r1, b, context.bytes], ?_⟩
  simp only [challenge, hr0, hr1, hb]
  rfl

theorem proofContext_ok (wallet : String) {threshold : ℤ} (h0 : 0 ≤ threshold)
    (h : threshold ≤ MAX_SCORE) {x y : ℕ} (hx : x < fieldModulus) (hy : y < fieldModulus) :
    ∃ context, proofContext sha256 wallet threshold x y = .ok context := by
  rcases Int.eq_ofNat_of_zero_le h0 with ⟨t, rfl⟩
  have ht : t < 256 ^ 1 := by unfold MAX_SCORE at h; omega
  have hv : toBytes 1 CIRCUIT_VERSION = .ok (toBigEndian 1 1) := rfl
  refine ⟨sha256 (encode wallet ++ toBigEndian 1 t ++ toBigEndian 1 1 ++ toBigEndian 32 x ++
    toBigEndian 32 y), ?_⟩
  simp only [proofContext, toBytes_natCast ht, hv, toBytes_natCast (fieldModulus_lt_word hx),
    toBytes_natCast (fieldModulus_lt_word hy)]
  rfl

theorem bitEntry_ok {B : G1Point} (h : B ≠ 0) (bp : BitResponse) :
    ∃ e, bitEntry B bp = .ok e := by
  rcases serializePoint_ok h with ⟨x, y, hxy⟩
  refine ⟨⟨bp, x, y⟩, ?_⟩
  simp only [bitEntry, hxy]
  rfl

theorem serializeProof_ok {P : G1Point} {Bs : List G1Point} (bps : List BitResponse)
    (hP : P ≠ 0) (hBs : ∀ B ∈ Bs, B ≠ 0) : ∃ proof, serializeProof P Bs bps = .ok proof := by
  rcases serializePoint_ok hP with ⟨x, y, hxy⟩
  obtain ⟨bits, hbits⟩ := mapM_succeeds (f := fun (B, bp) => bitEntry B bp) (l := Bs.zip bps)
    fun e he => bitEntry_ok (hBs e.1 (List.of_mem_zip he).1) e.2
  exact ⟨⟨some CIRCUIT_VERSION, x, y, bits⟩,
    bind_eq_ok.mpr ⟨(x, y), hxy, bind_eq_ok.mpr ⟨bits, hbits, rfl⟩⟩⟩

theorem differenceBit_natCast (n i : ℕ) : differenceBit n i = (n.testBit i).toNat := by
  rw [Nat.toNat_testBit, ← Nat.shiftRight_eq_div_pow]
  rfl

theorem differenceBit_sum {d : ℤ} (h0 : 0 ≤ d) (h : d ≤ MAX_SCORE) :
    ∑ i ∈ Finset.range NUM_BITS, (differenceBit d i : ScalarField) * 2 ^ i = d := by
  rcases Int.eq_ofNat_of_zero_le h0 with ⟨n, rfl⟩
  have hn : n < 2 ^ NUM_BITS := by
    unfold MAX_SCORE at h
    unfold NUM_BITS
    omega
  have hsum := congrArg (Nat.cast : ℕ → ScalarField) (sum_testBit n NUM_BITS)
  rw [Nat.mod_eq_of_lt hn] at hsum
  push_cast at hsum
  simpa only [differenceBit_natCast, Int.cast_natCast] using hsum

theorem totalBlinding_cast : (totalBlinding tape : ScalarField) =
    ∑ i ∈ Finset.range NUM_BITS, (randScalar tape i : ScalarField) * 2 ^ i := by
  have hsum : ((List.range NUM_BITS).map fun i => 2 ^ i * randScalar tape i).sum =
      ∑ i ∈ Finset.range NUM_BITS, 2 ^ i * randScalar tape i := rfl
  rw [totalBlinding, ZMod.natCast_mod, hsum]
  push_cast
  exact Finset.sum_congr rfl fun i _ => mul_comm _ _

theorem bitCommit_eq (d : ℤ) (i : ℕ) : bitCommit ecc sha256 tape d i =
    ofScalar (differenceBit d i + randScalar tape i * hScalar sha256) := by
  rw [bitCommit, ecc.add_eq, ecc.multiply_eq, ecc.multiply_eq, hGenerator_eq,
    ← ofScalar_natCast, nsmul_ofScalar, ← map_add]

theorem sum_bitCommit {d : ℤ} (h0 : 0 ≤ d) (h : d ≤ MAX_SCORE) :
    ∑ i ∈ Finset.range NUM_BITS, 2 ^ i • bitCommit ecc sha256 tape d i =
      ofScalar (d + totalBlinding tape * hScalar sha256) := by
  simp only [bitCommit_eq, ← map_nsmul, ← map_sum, nsmul_eq_mul]
  rw [← differenceBit_sum h0 h, totalBlinding_cast, Finset.sum_mul, ← Finset.sum_add_distrib]
  congr 1
  refine Finset.sum_congr rfl fun i _ => ?_
  push_cast
  ring

/-! ## Draws that make every commitment `2 • G1`

Away from the degenerate label these draws keep every point finite, so the prover returns.
-/

/-- `(2 - b) / h`. -/
def blindingFor (d : ℤ) (i : ℕ) : ScalarField :=
  (2 - differenceBit d i) / hScalar sha256

def uniformTape (d : ℤ) : Tape := fun call =>
  .ofNat 32 (if call < NUM_BITS then (blindingFor sha256 d call).val
    else if (call - NUM_BITS) % 4 = 0 then 0 else 1)

theorem randScalar_of_lt {call v : ℕ} (h : tape call = .ofNat 32 v) (hv : v < curveOrder) :
    randScalar tape call = v := by
  rw [randScalar, h, BytesN.ofNat, ofBigEndian_toBigEndian _ _ (curveOrder_lt_word hv),
    Nat.mod_eq_of_lt hv]

theorem uniformTape_blinding (d : ℤ) {i : ℕ} (h : i < NUM_BITS) :
    (randScalar (uniformTape sha256 d) i : ScalarField) = blindingFor sha256 d i := by
  rw [randScalar_of_lt _ (by rw [uniformTape, if_pos h]) (ZMod.val_lt _), ZMod.natCast_zmod_val]

theorem uniformTape_first (d : ℤ) (i : ℕ) :
    randScalar (uniformTape sha256 d) (NUM_BITS + 4 * i) = 0 := by
  apply randScalar_of_lt _ _ (by norm_num)
  rw [uniformTape, if_neg (by omega), if_pos (by omega)]

theorem uniformTape_later (d : ℤ) (i j : ℕ) (h : j % 4 ≠ 0) :
    randScalar (uniformTape sha256 d) (NUM_BITS + 4 * i + j) = 1 := by
  apply randScalar_of_lt _ _ (by norm_num)
  rw [uniformTape, if_neg (by omega), if_neg (by omega)]

section Uniform

variable {sha256} (h : hScalar sha256 ≠ 0)
include h

private theorem hScalar_ne : (hScalar sha256 : ScalarField) ≠ 0 :=
  mt (hScalar_cast_eq_zero sha256).mp h

theorem uniform_bitCommit (d : ℤ) {i : ℕ} (hi : i < NUM_BITS) :
    bitCommit ecc sha256 (uniformTape sha256 d) d i = ofScalar 2 := by
  rw [bitCommit_eq, uniformTape_blinding sha256 d hi, blindingFor,
    div_mul_cancel₀ _ (hScalar_ne h)]
  congr 1
  ring

theorem uniform_totalBlinding {d : ℤ} (h0 : 0 ≤ d) (hd : d ≤ MAX_SCORE) :
    (totalBlinding (uniformTape sha256 d) : ScalarField) * hScalar sha256 = 254 - d := by
  have hterm (i : ℕ) (hi : i < NUM_BITS) : (randScalar (uniformTape sha256 d) i : ScalarField) *
      hScalar sha256 = 2 - differenceBit d i := by
    rw [uniformTape_blinding sha256 d hi, blindingFor, div_mul_cancel₀ _ (hScalar_ne h)]
  have hweights : ∑ i ∈ Finset.range NUM_BITS, (2 : ScalarField) * 2 ^ i = 254 := by
    norm_num [NUM_BITS, Finset.sum_range_succ]
  rw [totalBlinding_cast, Finset.sum_mul, ← hweights, ← differenceBit_sum h0 hd,
    ← Finset.sum_sub_distrib]
  refine Finset.sum_congr rfl fun i hi => ?_
  linear_combination 2 ^ i * hterm i (Finset.mem_range.mp hi)

theorem uniform_pedersenCommit {score threshold : ℤ} (h0 : 0 ≤ score - threshold)
    (hd : score - threshold ≤ MAX_SCORE) :
    pedersenCommit ecc sha256 score (totalBlinding (uniformTape sha256 (score - threshold))) =
      ofScalar (threshold + 254) := by
  rw [pedersenCommit_eq, Int.cast_natCast, uniform_totalBlinding h h0 hd]
  congr 1
  push_cast
  ring

theorem hGenerator_ne_zero : hGenerator ecc sha256 ≠ 0 := by
  rw [hGenerator_eq, Ne, ofScalar_eq_zero]
  exact hScalar_ne h

theorem uniform_proveBit_ok (d : ℤ) {i : ℕ} (hi : i < NUM_BITS) (context : BytesN 32) :
    ∃ bp, proveBit ecc sha256 (uniformTape sha256 d) (NUM_BITS + 4 * i) (differenceBit d i)
      (randScalar (uniformTape sha256 d) i) (bitCommit ecc sha256 (uniformTape sha256 d) d i)
      context = .ok bp := by
  have hH := hGenerator_ne_zero ecc h
  have hB : bitCommit ecc sha256 (uniformTape sha256 d) d i ≠ 0 := by
    rw [uniform_bitCommit ecc h d hi, Ne, ofScalar_eq_zero]
    decide
  rcases challenge_ok sha256 hH hH hB context with ⟨c, hc⟩
  unfold proveBit
  simp only [uniformTape_first, uniformTape_later _ _ _ 1 (by decide),
    uniformTape_later _ _ _ 2 (by decide), ecc.multiply_eq, ecc.add_eq, ecc.neg_eq, one_nsmul,
    zero_nsmul, neg_zero, add_zero, hc]
  split
  · exact ⟨_, rfl⟩
  · exact ⟨_, rfl⟩

/-- The prover returns on these draws. -/
theorem uniform_generate_ok {Features : Type} (dumps : CommitmentPayload Features → String)
    (wallet : String) {score threshold : ℤ} (features : Features) (salt : List UInt8)
    (h0 : 0 ≤ threshold) (hle : threshold ≤ score) (hs : score ≤ MAX_SCORE) :
    ∃ g, generateThresholdProof ecc sha256 (uniformTape sha256 (score - threshold)) dumps wallet
      score features salt threshold = .ok g := by
  have hd : score - threshold ≤ MAX_SCORE := by omega
  have hP : pedersenCommit ecc sha256 score
      (totalBlinding (uniformTape sha256 (score - threshold))) ≠ 0 := by
    rw [uniform_pedersenCommit ecc h (by omega) hd, Ne, ofScalar_eq_zero]
    rcases Int.eq_ofNat_of_zero_le h0 with ⟨t, rfl⟩
    have hlt : t + 254 < curveOrder :=
      lt_of_le_of_lt (by unfold MAX_SCORE at hs; omega : t + 254 ≤ 354) (by norm_num)
    exact_mod_cast fun hz => absurd ((ZMod.natCast_eq_zero_iff _ _).mp hz)
      (Nat.not_dvd_of_pos_of_lt (by omega) hlt)
  rcases serializePoint_ok hP with ⟨x, y, hxy⟩
  have hlt := serializePoint_lt hxy
  rcases proofContext_ok sha256 wallet h0 (by omega) hlt.1 hlt.2 with ⟨context, hcontext⟩
  obtain ⟨bitProofs, hbits⟩ := mapM_succeeds fun i hi =>
    uniform_proveBit_ok ecc h (score - threshold) (List.mem_range.mp hi) context
  have hcommits : ∀ B ∈ (List.range NUM_BITS).map
      (bitCommit ecc sha256 (uniformTape sha256 (score - threshold)) (score - threshold)),
      B ≠ 0 := by
    intro B hB
    rcases List.mem_map.mp hB with ⟨i, hi, rfl⟩
    rw [uniform_bitCommit ecc h _ (List.mem_range.mp hi), Ne, ofScalar_eq_zero]
    decide
  rcases serializeProof_ok bitProofs hP hcommits with ⟨proof, hproof⟩
  exact ⟨_, guard_eq_ok.mpr ⟨by omega, guard_eq_ok.mpr ⟨by omega, guard_eq_ok.mpr ⟨by omega,
    bind_eq_ok.mpr ⟨_, hxy, bind_eq_ok.mpr ⟨_, hcontext, bind_eq_ok.mpr ⟨_, hbits,
      bind_eq_ok.mpr ⟨_, hproof, rfl⟩⟩⟩⟩⟩⟩⟩⟩

end Uniform

end ZkProver
