import LedgerLens.Bn254
import LedgerLens.Sha256

/-!
# Pedersen commitments of risk scores

`detection/zk_commitment.py`. The curve library is a parameter that computes the
BN254 group law; its `None` is the zero of the group. The blinding generator is the
published multiple of `G1`, which is what decides whether the commitment binds.
-/
namespace ZkCommitment

open Bn254 ByteStrings
open Sha256 (hexdigest)

/-- `add`, `neg` and `multiply` of `py_ecc.bn128` on points of the curve. -/
structure PyEcc where
  add : G1Point → G1Point → G1Point
  neg : G1Point → G1Point
  multiply : G1Point → ℕ → G1Point
  add_eq : ∀ P Q, add P Q = P + Q
  neg_eq : ∀ P, neg P = -P
  multiply_eq : ∀ P k, multiply P k = k • P

def PyEcc.groupLaw : PyEcc :=
  ⟨(· + ·), (- ·), fun P k => k • P, fun _ _ => rfl, fun _ => rfl, fun _ _ => rfl⟩

/-- `str.encode()`. -/
def encode (s : String) : List UInt8 := s.toUTF8.toList

variable (ecc : PyEcc) (sha256 : List UInt8 → BytesN 32)

def labelDigest : BytesN 32 := sha256 (encode "LedgerLens ZK Generator H")

/-- The scalar `h_generator` multiplies `G1` by. -/
def hScalar : ℕ := ofBigEndian (labelDigest sha256).bytes % curveOrder

def hGenerator : G1Point := ecc.multiply generator (hScalar sha256)

/-- Python's `%` by a positive modulus is never negative. -/
def modOrder (v : ℤ) : ℕ := (v % curveOrder).toNat

def pedersenCommit (value blinding : ℤ) : G1Point :=
  ecc.add (ecc.multiply generator (modOrder value))
    (ecc.multiply (hGenerator ecc sha256) (modOrder blinding))

inductive PyError where
  | proofError (message : String)
  | typeError
  | overflowError
  deriving DecidableEq, Repr

/-- Indexing `None`, the point at infinity, is a `TypeError`. -/
def serializePoint : G1Point → Except PyError (ℕ × ℕ)
  | .zero => throw .typeError
  | .some x y _ => pure (x.val, y.val)

/-- The fields `json.dumps` receives; the feature dictionary is any serialisable value. -/
structure CommitmentPayload (Features : Type*) where
  wallet : String
  score : ℤ
  features : Features
  pedersenX : ℕ
  pedersenY : ℕ

def scoreCommitment {Features : Type*} (dumps : CommitmentPayload Features → String)
    (salt : List UInt8) (payload : CommitmentPayload Features) : String :=
  hexdigest (sha256 (salt ++ encode (dumps payload)))

theorem serializePoint_ok {P : G1Point} (h : P ≠ 0) :
    ∃ x y, serializePoint P = .ok (x, y) := by
  cases P with
  | zero => exact absurd rfl h
  | some x y _ => exact ⟨_, _, rfl⟩

theorem serializePoint_lt {P : G1Point} {x y : ℕ} (h : serializePoint P = .ok (x, y)) :
    x < fieldModulus ∧ y < fieldModulus := by
  cases P with
  | zero => cases h
  | some u v _ =>
    cases h
    exact ⟨ZMod.val_lt u, ZMod.val_lt v⟩

theorem modOrder_lt (v : ℤ) : modOrder v < curveOrder := by
  unfold modOrder
  have := Int.emod_nonneg v (b := curveOrder) (by norm_num)
  have := Int.emod_lt_of_pos v (b := curveOrder) (by norm_num)
  omega

@[simp] theorem modOrder_cast (v : ℤ) : (modOrder v : ScalarField) = v := by
  have h : ((modOrder v : ℕ) : ℤ) = v % curveOrder :=
    Int.toNat_of_nonneg (Int.emod_nonneg v (by norm_num))
  rw [← Int.cast_natCast, h, ZMod.intCast_mod]

@[simp] theorem hGenerator_eq : hGenerator ecc sha256 = ofScalar (hScalar sha256) := by
  rw [hGenerator, ecc.multiply_eq, ofScalar_natCast]

/-- A commitment is one multiple of `G1`: everybody can compute its second coefficient. -/
theorem pedersenCommit_eq (value blinding : ℤ) : pedersenCommit ecc sha256 value blinding =
    ofScalar (value + blinding * hScalar sha256) := by
  rw [pedersenCommit, ecc.add_eq, ecc.multiply_eq, ecc.multiply_eq, hGenerator_eq,
    ← ofScalar_natCast, nsmul_ofScalar, ← map_add, modOrder_cast, modOrder_cast]

theorem pedersenCommit_eq_iff (s r s' r' : ℤ) :
    pedersenCommit ecc sha256 s' r' = pedersenCommit ecc sha256 s r ↔
      (s' + r' * hScalar sha256 : ScalarField) = s + r * hScalar sha256 := by
  rw [pedersenCommit_eq, pedersenCommit_eq]
  exact ofScalar_injective.eq_iff

/-- Expressions over the scalar field in an opening, a second score and public values. -/
inductive Formula where
  | score
  | blinding
  | otherScore
  | labelDigest
  | curveOrder
  | hScalar
  | literal (k : ℤ)
  | add (f g : Formula)
  | sub (f g : Formula)
  | mul (f g : Formula)
  | inv (f : Formula)
  deriving DecidableEq, Repr

def Formula.eval (s r s' : ℤ) : Formula → ScalarField
  | .score => s
  | .blinding => r
  | .otherScore => s'
  | .labelDigest => ofBigEndian (ZkCommitment.labelDigest sha256).bytes
  | .curveOrder => Bn254.curveOrder
  | .hScalar => ZkCommitment.hScalar sha256
  | .literal k => k
  | .add f g => f.eval s r s' + g.eval s r s'
  | .sub f g => f.eval s r s' - g.eval s r s'
  | .mul f g => f.eval s r s' * g.eval s r s'
  | .inv f => (f.eval s r s')⁻¹

def Formula.Equivocates (f : Formula) : Prop :=
  ∀ s r s' : ℤ, s' ≠ s →
    pedersenCommit ecc sha256 s' (f.eval sha256 s r s').val = pedersenCommit ecc sha256 s r

def Binding : Prop := ¬ ∃ f : Formula, f.Equivocates ecc sha256

/-- `r + (s - s') / h`. -/
def reopening : Formula :=
  .add .blinding (.mul (.sub .score .otherScore) (.inv .hScalar))

theorem hScalar_cast_eq_zero : (hScalar sha256 : ScalarField) = 0 ↔ hScalar sha256 = 0 := by
  constructor
  · intro h
    exact Nat.eq_zero_of_dvd_of_lt ((ZMod.natCast_eq_zero_iff _ _).mp h)
      (Nat.mod_lt _ (by norm_num))
  · intro h
    rw [h, Nat.cast_zero]

theorem reopening_equivocates (h : hScalar sha256 ≠ 0) :
    reopening.Equivocates ecc sha256 := by
  intro s r s' _
  have hne : (hScalar sha256 : ScalarField) ≠ 0 := mt (hScalar_cast_eq_zero sha256).mp h
  rw [pedersenCommit_eq_iff, Int.cast_natCast, ZMod.natCast_zmod_val]
  simp only [reopening, Formula.eval]
  field_simp
  ring

/-- With `H` at infinity the commitment is the score's own multiple of `G1`. -/
theorem nothing_equivocates (h : hScalar sha256 = 0) (f : Formula) :
    ¬ f.Equivocates ecc sha256 := by
  intro hf
  have h01 := (pedersenCommit_eq_iff ecc sha256 _ _ _ _).mp (hf 0 0 1 (by decide))
  simp [h] at h01

/-- Binding rests on the label hashing to a multiple of the curve order. -/
theorem binding_iff_label_vanishes :
    Binding ecc sha256 ↔ ofBigEndian (labelDigest sha256).bytes % Bn254.curveOrder = 0 := by
  constructor
  · intro hb
    by_contra h
    exact hb ⟨reopening, reopening_equivocates ecc sha256 h⟩
  · rintro h ⟨f, hf⟩
    exact nothing_equivocates ecc sha256 h f hf

theorem label_scalar_ne_zero : hScalar Sha256.sha256 ≠ 0 := by decide +kernel

/-- The deployed label does not vanish, so the reopening formula works against it. -/
theorem deployed_commitment_equivocates : ¬ Binding PyEcc.groupLaw Sha256.sha256 := by
  intro hb
  exact hb ⟨reopening, reopening_equivocates _ _ label_scalar_ne_zero⟩

end ZkCommitment
