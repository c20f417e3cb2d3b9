import LedgerLens.Proofs.ThresholdVerifier
import LedgerLens.Proofs.ZkProver

/-!
# The verifier of the Rust SDK

`crates/ledgerlens-sdk/src/zk.rs`. The curve and field libraries are a parameter with
exact arithmetic. Field elements arrive as decimal strings, are padded to 32 bytes with
the most significant byte first, and are then read with the least significant byte first.
-/
namespace SdkZkVerifier

open Bn254 ByteStrings FallibleRuns ThresholdVerifier ZkCommitment ZkProver
open scoped JacobianCoordinates

def MAX_SCORE : UInt32 := 100
def NUM_BITS : ℕ := 7

/-- `ark_bn254`, `ark_ff` and `num_bigint`. `G1Affine::new` asserts the curve equation. -/
structure Ark where
  newAffine : BaseField → BaseField → Option G1Point
  baseFromLeBytes : List UInt8 → BaseField
  scalarFromLeBytes : List UInt8 → ScalarField
  parseBigUint : String → Option ℕ
  add : G1Point → G1Point → G1Point
  neg : G1Point → G1Point
  mul : G1Point → ScalarField → G1Point
  newAffine_eq : ∀ x y P, newAffine x y = some P ↔ ∃ h : y ^ 2 = x ^ 3 + 3, P = mkPoint x y h
  baseFromLeBytes_eq : ∀ l, baseFromLeBytes l = ofLittleEndian l
  scalarFromLeBytes_eq : ∀ l, scalarFromLeBytes l = ofLittleEndian l
  parseBigUint_toString : ∀ n : ℕ, parseBigUint (toString n) = some n
  add_eq : ∀ P Q, add P Q = P + Q
  neg_eq : ∀ P, neg P = -P
  mul_eq : ∀ P k, mul P k = k.val • P

inductive ZkVerifyError where
  | invalidFormat (message : String)
  | invalidThreshold (threshold : UInt32)
  deriving DecidableEq, Repr

inductive Failure where
  | error (e : ZkVerifyError)
  | panic
  deriving DecidableEq, Repr

structure BitStrings where
  commitX : String
  commitY : String
  c0 : String
  c1 : String
  s0 : String
  s1 : String
  deriving DecidableEq, Repr

structure ThresholdProof where
  scoreCommitX : String
  scoreCommitY : String
  bits : List BitStrings
  deriving DecidableEq, Repr

variable (ark : Ark) (sha256 : List UInt8 → BytesN 32)

/-- A longer value does not fit the padded buffer, and `copy_from_slice` panics. -/
def parseDecimalStringToBytes (s : String) : Except Failure (List UInt8) :=
  match ark.parseBigUint s with
  | none => throw (.error (.invalidFormat s!"invalid field element: {s}"))
  | some v => if v < 256 ^ 32 then pure (toBigEndian 32 v) else throw .panic

def parseScalar (s : String) : Except Failure ScalarField := do
  return ark.scalarFromLeBytes (← parseDecimalStringToBytes ark s)

def parseBase (s : String) : Except Failure BaseField := do
  return ark.baseFromLeBytes (← parseDecimalStringToBytes ark s)

def parsePoint (x y : String) : Except Failure G1Point := do
  match ark.newAffine (← parseBase ark x) (← parseBase ark y) with
  | none => throw .panic
  | some P => pure P

def hGenerator : G1Point :=
  ark.mul generator (ark.scalarFromLeBytes (sha256 (encode "LedgerLens ZK Generator H")).bytes)

def pointBytes : G1Point → List UInt8
  | .zero => toBigEndian 32 0 ++ toBigEndian 32 0
  | .some x y _ => toBigEndian 32 x.val ++ toBigEndian 32 y.val

def fiatShamir (context : BytesN 32) (r0 r1 b : G1Point) : ScalarField :=
  ark.scalarFromLeBytes (sha256 (encode "LedgerLens/zk/v1" ++ pointBytes r0 ++ pointBytes r1 ++
    pointBytes b ++ context.bytes)).bytes

def buildContext (wallet : String) (threshold : UInt32) (scoreCommit : G1Point) : BytesN 32 :=
  sha256 (encode wallet ++ [threshold.toUInt8] ++ pointBytes scoreCommit)

/-- The library arithmetic behind the verifier's calls. -/
def arkOps : GroupOps G1Point ScalarField where
  infinity := 0
  add := ark.add
  neg := ark.neg
  mulScalar := ark.mul
  eq P Q := decide (P = Q)
  scalarAdd := (· + ·)
  scalarEq := (· == ·)
  scalarOfU64 v := v.toNat

def parseBit (bp : BitStrings) : Except Failure (BitProof G1Point ScalarField) := do
  let commit ← parsePoint ark bp.commitX bp.commitY
  let c0 ← parseScalar ark bp.c0
  let c1 ← parseScalar ark bp.c1
  let s0 ← parseScalar ark bp.s0
  let s1 ← parseScalar ark bp.s1
  return { commit, c0, c1, s0, s1 }

def checkBits (context : BytesN 32) : List BitStrings → Except Failure Bool
  | [] => pure true
  | bp :: rest => do
    let parsed ← parseBit ark bp
    if bitHolds (arkOps ark) generator (hGenerator ark sha256) (fiatShamir ark sha256 context)
        parsed then
      checkBits context rest
    else
      pure false

def accumulate (acc : G1Point) : List (BitStrings × ℕ) → Except Failure G1Point
  | [] => pure acc
  | (bp, i) :: rest => do
    let b ← parsePoint ark bp.commitX bp.commitY
    let coeff : ScalarField := ((1 <<< UInt64.ofNat i : UInt64).toNat : ScalarField)
    accumulate (ark.add acc (ark.mul b coeff)) rest

def verifyThresholdProof (proof : ThresholdProof) (threshold : UInt32) (wallet : String) :
    Except Failure Bool :=
  if MAX_SCORE < threshold then throw (.error (.invalidThreshold threshold))
  else if proof.bits.length ≠ NUM_BITS then
    throw (.error (.invalidFormat
      s!"expected {NUM_BITS} bit proofs, got {proof.bits.length}"))
  else do
    let p ← parsePoint ark proof.scoreCommitX proof.scoreCommitY
    let context := buildContext sha256 wallet threshold p
    if ← checkBits ark sha256 context proof.bits then
      let pMinusTG := ark.add p (ark.neg (ark.mul generator (threshold.toNat : ScalarField)))
      let accumulated ← accumulate ark 0 proof.bits.zipIdx
      return decide (accumulated = pMinusTG)
    else
      return false

def sdkProof (proof : ProofDict) : ThresholdProof where
  scoreCommitX := toString proof.scoreCommitX
  scoreCommitY := toString proof.scoreCommitY
  bits := proof.bits.map fun e =>
    ⟨toString e.commitX, toString e.commitY, toString e.c0, toString e.c1, toString e.s0,
      toString e.s1⟩

def reversed (v : ℕ) : BaseField := ofLittleEndian (toBigEndian 32 v)

theorem parseBase_toString {v : ℕ} (h : v < 256 ^ 32) :
    parseBase ark (toString v) = .ok (reversed v) := by
  simp only [parseBase, parseDecimalStringToBytes, ark.parseBigUint_toString, if_pos h]
  exact congrArg Except.ok (ark.baseFromLeBytes_eq _)

theorem parsePoint_on_curve {x y : ℕ} (hx : x < 256 ^ 32) (hy : y < 256 ^ 32) {P : G1Point}
    (h : parsePoint ark (toString x) (toString y) = .ok P) :
    reversed y ^ 2 = reversed x ^ 3 + 3 := by
  simp only [parsePoint, parseBase_toString ark hx, parseBase_toString ark hy] at h
  cases hnew : ark.newAffine (reversed x) (reversed y) with
  | none =>
    simp only [bind, Except.bind, hnew] at h
    cases h
  | some Q => exact ((ark.newAffine_eq _ _ _).mp hnew).1

theorem accepted_first_point {proof : ThresholdProof} {threshold : UInt32} {wallet : String}
    (h : verifyThresholdProof ark sha256 proof threshold wallet = .ok true)
    (hb : 0 < proof.bits.length) :
    ∃ P, parsePoint ark proof.bits[0].commitX proof.bits[0].commitY = .ok P := by
  rcases guard_eq_ok.mp h with ⟨-, h⟩
  rcases guard_eq_ok.mp h with ⟨-, h⟩
  rcases bind_eq_ok.mp h with ⟨p, -, h⟩
  rcases bind_eq_ok.mp h with ⟨b, hcheck, -⟩
  rcases List.exists_cons_of_length_pos hb with ⟨bp, rest, hbits⟩
  rw [hbits] at hcheck
  rcases bind_eq_ok.mp hcheck with ⟨parsed, hparsed, -⟩
  rcases bind_eq_ok.mp hparsed with ⟨P, hP, -⟩
  exact ⟨P, by simpa only [hbits, List.getElem_cons_zero] using hP⟩

/-- The bytes of `2 • G1` in reverse are no point of the curve. -/
theorem reversed_double_off_curve :
    reversed generatorDoubleY.val ^ 2 ≠ reversed generatorDoubleX.val ^ 3 + 3 := by
  decide +kernel

def AcceptsProver (ecc : PyEcc) (wallet : String) (score threshold : ℤ) : Prop :=
  ∀ (Features : Type) (dumps : CommitmentPayload Features → String) (tape : Tape)
    (features : Features) (salt : List UInt8) (g : Generated),
    generateThresholdProof ecc sha256 tape dumps wallet score features salt threshold = .ok g →
    verifyThresholdProof ark sha256 (sdkProof g.proof) (.ofNat threshold.toNat) wallet = .ok true

/-- A proof whose first commitment is `2 • G1` is never accepted. -/
theorem double_commitment_rejected {proof : ProofDict} (hrange : proof.InRange)
    (hfirst : ∃ hb : 0 < proof.bits.length,
      serializePoint (2 • generator) = .ok (proof.bits[0].commitX, proof.bits[0].commitY))
    (threshold : UInt32) (wallet : String) :
    verifyThresholdProof ark sha256 (sdkProof proof) threshold wallet ≠ .ok true := by
  intro haccepted
  rcases hfirst with ⟨hb, hcoords⟩
  have hin := hrange.bits_inRange _ (List.getElem_mem hb)
  have hb' : 0 < (sdkProof proof).bits.length := by rwa [sdkProof, List.length_map]
  rcases accepted_first_point ark sha256 haccepted hb' with ⟨P, hP⟩
  simp only [sdkProof, List.getElem_map] at hP
  have hcurve := parsePoint_on_curve ark hin.commitX_lt hin.commitY_lt hP
  rw [two_nsmul_generator] at hcoords
  rcases Prod.mk.inj (Except.ok.inj hcoords) with ⟨hx, hy⟩
  rw [← hx, ← hy] at hcurve
  exact reversed_double_off_curve hcurve

/-- Some draws always produce `2 • G1` as the first commitment. -/
theorem prover_rejected (ecc : PyEcc) (wallet : String) {score threshold : ℤ}
    (h : hScalar sha256 ≠ 0) (h0 : 0 ≤ threshold) (hle : threshold ≤ score) (hs : score ≤ 100) :
    ¬ AcceptsProver ark sha256 ecc wallet score threshold := by
  intro haccepts
  obtain ⟨g, hg⟩ := uniform_generate_ok ecc h (fun _ : CommitmentPayload Unit => "{}") wallet
    () [] h0 hle hs
  obtain ⟨hb, hfirst⟩ := generate_bits ecc sha256 _ hg (i := 0) (by decide)
  rw [uniform_bitCommit ecc h _ (by decide),
    show (2 : ScalarField) = (2 : ℕ) from rfl, ofScalar_natCast] at hfirst
  exact double_commitment_rejected ark sha256 (generate_inRange ecc sha256 _ hg) ⟨hb, hfirst⟩
    _ wallet (haccepts _ _ _ _ _ g hg)

/-- The verifier accepts what the prover proves only where the prover proves nothing:
when the label hashes to a multiple of the curve order. -/
theorem accepts_prover_iff_label_vanishes (ecc : PyEcc) (wallet : String) {score threshold : ℤ}
    (h0 : 0 ≤ threshold) (hle : threshold ≤ score) (hs : score ≤ 100) :
    AcceptsProver ark sha256 ecc wallet score threshold ↔ hScalar sha256 = 0 := by
  constructor
  · intro haccepts
    by_contra h
    exact prover_rejected ark sha256 ecc wallet h h0 hle hs haccepts
  · intro h Features dumps tape features salt g hg
    exact absurd hg (generate_of_label_zero ecc sha256 tape h)

/-- The documented behaviour of the libraries, computed. -/
def Ark.reference : Ark where
  newAffine x y := if h : y ^ 2 = x ^ 3 + 3 then some (mkPoint x y h) else none
  baseFromLeBytes l := ofLittleEndian l
  scalarFromLeBytes l := ofLittleEndian l
  parseBigUint s :=
    if s.toList.all Char.isDigit then some (Nat.ofDigitChars 10 s.toList 0) else none
  add := (· + ·)
  neg := (- ·)
  mul P k := k.val • P
  newAffine_eq x y P := by
    by_cases h : y ^ 2 = x ^ 3 + 3
    · simp only [dif_pos h, Option.some.injEq, exists_prop_of_true h]
      exact eq_comm
    · simp [h]
  baseFromLeBytes_eq _ := rfl
  scalarFromLeBytes_eq _ := rfl
  parseBigUint_toString n := by
    have hdigits : (toString n).toList = Nat.toDigits 10 n := Nat.toList_repr
    have hall : (Nat.toDigits 10 n).all Char.isDigit = true :=
      List.all_eq_true.mpr fun c hc => Nat.isDigit_of_mem_toDigits (by omega) (by omega) hc
    rw [hdigits, if_pos hall, Nat.ofDigitChars_ten_toDigits]
  add_eq := PyEcc.groupLaw.add_eq
  neg_eq := PyEcc.groupLaw.neg_eq
  mul_eq _ _ := rfl

/-- The deployed hash and a score of ninety against a threshold of seventy. -/
theorem deployed_accepts_prover_iff :
    AcceptsProver Ark.reference Sha256.sha256 PyEcc.groupLaw "GWALLET" 90 70 ↔
      hScalar Sha256.sha256 = 0 :=
  accepts_prover_iff_label_vanishes _ _ _ _ (by decide) (by decide) (by decide)

theorem deployed_sdk_rejects_prover :
    ¬ AcceptsProver Ark.reference Sha256.sha256 PyEcc.groupLaw "GWALLET" 90 70 :=
  prover_rejected _ _ _ _ label_scalar_ne_zero (by decide) (by decide) (by decide)

end SdkZkVerifier
