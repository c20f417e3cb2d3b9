import LedgerLens.Bn254
import LedgerLens.Bn254Twist
import LedgerLens.ExtensionInverses
import LedgerLens.MillerLoop
import Mathlib.Data.Fin.VecNotation

/-!
# The pairing of the verifier contract

`pairing` of `contracts/zk_verifier/src/pairing.rs`: a point of the second group is twisted into the
extension of degree twelve, the lines of the Miller loop are multiplied up there, and the product is
raised to the final exponent. Coordinates are the residues that `Fq` stands for.
-/
namespace Pairing

open Bn254 ByteStrings ExtensionFields JacobianCoordinates MillerLoop

abbrev Fq2 := ExtField BaseField 2
abbrev Fq12 := ExtField BaseField 12

def FQ2_MODULUS : Fin 2 → ℤ := ![1, 0]

def FQ12_MODULUS : Fin 12 → ℤ := ![82, 0, 0, 0, 0, 0, -18, 0, 0, 0, 0, 0]

instance : Mul Fq2 := ⟨mulWith FQ2_MODULUS⟩

instance : Mul Fq12 := ⟨mulWith FQ12_MODULUS⟩

/-- The contents of `final_exponent.bin`. -/
def FINAL_EXPONENT_BYTES : List UInt8 :=
  toBigEndian 29 0x2f4b6dc97020fddadf107d20bc842d43bf6369b1ff6a1c71015f3f7be2 ++ [
    0xe1e30a73bb94fec0daf15466b2383a5d3ec3d15ad524d8f70c54efee1bd8c3b2,
    0x1377e563a09a1b705887e72eceaddea3790364a61f676baaf977870e88d5c6c8,
    0xfef0781361e443ae77f5b63a2a2264487f2940a8b1ddb3d15062cd0fb2015dfc,
    0x6668449aed3cc48a82d0d602d268c7daab6a41294c0cc4ebe5664568dfc50e16,
    0x48a45a4a1e3a5195846a3ed011a337a02088ec80e0ebae8755cfe107acf3aafb,
    0x40494e406f804216bb10cf430b0f37856b42db8dc5514724ee93dfb10826f0dd,
    0x4a0364b9580291d2cd65664814fde37ca80bb4ea44eacc5e641bbadf423f9a2c,
    0xbf813b8d145da90029baee7ddadda71c7f3811c4105262945bba1668c3be69a3,
    0xc230974d83561841d766f9c9d570bb7fbe04c7e8a6c3c760c0de81def35692da,
    0x361102b6b9b2b918837fa97896e84abb40a4efb7e54523a486964b64ca86f120].flatMap (toBigEndian 32)

theorem ofBigEndian_finalExponent :
    ofBigEndian FINAL_EXPONENT_BYTES = (fieldModulus ^ 12 - 1) / curveOrder := by decide +kernel

/-- The point at infinity has no coordinates but `(0, 0)`. -/
structure G2Point where
  x : Fq2
  y : Fq2
  deriving DecidableEq

def G2Point.generator : G2Point :=
  let fq (word : ℕ) : BaseField := word
  ⟨⟨![fq 0x1800deef121f1e76426a00665e5c4479674322d4f75edadd46debd5cd992f6ed,
      fq 0x198e9393920d483a7260bfb731fb5d25f1aa493335a9e71297e485b7aef312c2]⟩,
    ⟨![fq 0x12c85ea5db8c6deb4aab71808dcb408fe3d1e7690c43d37b4ce6cc0166fa7daa,
      fq 0x090689d0585ff075ec9e99ad690c3395bc4b313370b38ef355acdadcd122975b]⟩⟩

def invert2 (a : Fq2) : Fq2 :=
  let normInv := (a.c 0 * a.c 0 + a.c 1 * a.c 1)⁻¹
  ⟨![a.c 0 * normInv, -a.c 1 * normInv]⟩

def conjugate (a : Fq2) : Fq2 := ⟨![a.c 0, -a.c 1]⟩

def twistB2 : Fq2 := invert2 ⟨![((9 : ℕ) : BaseField), 1]⟩ * ⟨![3, 0]⟩

def G2Point.isOnCurve (q : G2Point) : Bool := q.y * q.y = q.x * q.x * q.x + twistB2

/-- From `u` to `w^6 = 9 + u`. -/
def isomorphism (f : Fq2) : Fq2 := ⟨![f.c 0 - f.c 1 * ((9 : ℕ) : BaseField), f.c 1]⟩

def embedFq2 (f : Fq2) : Fq12 := ⟨fun i => if i = 0 then f.c 0 else if i = 6 then f.c 1 else 0⟩

/-- The coefficients move up by `k`, those that leave the array wrap by `w^12 = 18 w^6 - 82`. -/
def mulW (k : ℕ) (f : Fq12) : Fq12 :=
  let shifted : ℕ → BaseField := fun i => if k ≤ i then f.pad (i - k) else 0
  let c := (List.range k).foldl (fun c i =>
    let top := f.pad (12 - k + i)
    if top = 0 then c else addAt (subAt c i (top * 82)) (i + 6) (top * 18)) shifted
  ⟨fun i => c i⟩

def mulW2 : Fq12 → Fq12 := mulW 2

def mulW3 : Fq12 → Fq12 := mulW 3

def twist (q : G2Point) : Triple Fq12 :=
  ⟨mulW2 (embedFq2 (isomorphism q.x)), mulW3 (embedFq2 (isomorphism q.y)), 1⟩

def extendG1 (v : BaseField) : Fq12 := ⟨fun i => if i = 0 then v else 0⟩

def toAffine (p : Triple BaseField) : BaseField × BaseField :=
  if p.z = 0 then (0, 0)
  else
    let zInv2 := p.z⁻¹ * p.z⁻¹
    let zInv3 := zInv2 * p.z⁻¹
    (p.x * zInv2, p.y * zInv3)

def embedG1Jacobian (p : Triple BaseField) : Triple Fq12 :=
  ⟨extendG1 (toAffine p).1, extendG1 (toAffine p).2, 1⟩

def frobeniusTwist (pt : Fq12 × Fq12) : Fq12 × Fq12 :=
  let pBytes := toBigEndian 32 fieldModulus
  (powBeBytes FQ12_MODULUS pt.1 pBytes, powBeBytes FQ12_MODULUS pt.2 pBytes)

def frobeniusTwist2 (pt : Fq12 × Fq12) : Fq12 × Fq12 := frobeniusTwist (frobeniusTwist pt)

/-- A line goes into `f` as its numerator and the inverse of its denominator; `f` is not squared. -/
def mulLine (f : Fq12) (line : Fq12 × Fq12) : Fq12 :=
  f * line.1 * invertWith FQ12_MODULUS line.2

def pairing (q : G2Point) (p : Triple BaseField) : Fq12 :=
  if p.z = 0 ∨ (q.x = 0 ∧ q.y = 0) then 1
  else
    let q12 := twist q
    let q1 := frobeniusTwist (q12.x, q12.y)
    let q2 := frobeniusTwist2 (q12.x, q12.y)
    let f := millerLoop mulLine 1 q12 (embedG1Jacobian p) ⟨q1.1, q1.2, 1⟩ ⟨q2.1, 0 - q2.2, 1⟩
    powBeBytes FQ12_MODULUS f FINAL_EXPONENT_BYTES

theorem modulus_fq12 :
    modulus BaseField FQ12_MODULUS = .X ^ (6 + 6) - .C ((18 : ℕ) : BaseField) * .X ^ 6 +
      .C ((82 : ℕ) : BaseField) := by
  have h18 : (Polynomial.C 18 : Polynomial BaseField) = 18 := map_ofNat _ 18
  have h82 : (Polynomial.C 82 : Polynomial BaseField) = 82 := map_ofNat _ 82
  simp [modulus, FQ12_MODULUS, Fin.sum_univ_succ, h18, h82]
  ring

noncomputable def target : Fq12 → AdjoinRoot (modulus BaseField FQ12_MODULUS) :=
  embed FQ12_MODULUS

theorem target_injective : Function.Injective target := embed_injective FQ12_MODULUS

theorem target_one : target 1 = 1 := embed_one (by norm_num)

theorem target_mul (a b : Fq12) : target (a * b) = target a * target b :=
  embed_mulWith (by norm_num) a b

/-- The products of the contract are those of a commutative monoid. -/
instance : CommMonoid Fq12 where
  mul_assoc a b c := target_injective (by simp only [target_mul, mul_assoc])
  one_mul a := target_injective (by rw [target_mul, target_one, one_mul])
  mul_one a := target_injective (by rw [target_mul, target_one, mul_one])
  mul_comm a b := target_injective (by rw [target_mul, target_mul, mul_comm])

theorem target_pow (a : Fq12) (n : ℕ) : target (a ^ n) = target a ^ n := by
  induction n with
  | zero =>
    rw [pow_zero, pow_zero]
    exact target_one
  | succ n ih =>
    rw [pow_succ, pow_succ, ← ih]
    exact target_mul _ _

theorem target_powBeBytes (a : Fq12) (bytes : List UInt8) :
    target (powBeBytes FQ12_MODULUS a bytes) = target a ^ ofBigEndian bytes :=
  embed_powBeBytes (by norm_num) a bytes

open TwistCurve

def ofFp2 (z : Fp2) : Fq2 := ⟨![z.re, z.im]⟩

theorem ofFp2_injective : Function.Injective ofFp2 := by
  intro z w h
  have hc := congrArg ExtField.c h
  exact QuadraticAlgebra.ext (congrFun hc 0) (congrFun hc 1)

theorem ofFp2_add (z w : Fp2) : ofFp2 (z + w) = ofFp2 z + ofFp2 w := by
  ext i
  fin_cases i <;> rfl

theorem ofFp2_mul (z w : Fp2) : ofFp2 (z * w) = ofFp2 z * ofFp2 w := by
  have htoPoly (z : Fp2) : (ofFp2 z).toPoly = .C z.re + .C z.im * .X := by
    rw [ExtField.toPoly_eq_sum, Fin.sum_univ_two]
    simp [ofFp2]
  have hmodulus : modulus BaseField FQ2_MODULUS = .X ^ 2 + 1 := by
    simp [modulus, FQ2_MODULUS]
  apply embed_injective FQ2_MODULUS
  refine Eq.trans ?_ (embed_mulWith (by norm_num) (ofFp2 z) (ofFp2 w)).symm
  rw [embed, embed, embed, ← map_mul, AdjoinRoot.mk_eq_mk, hmodulus, htoPoly, htoPoly, htoPoly]
  refine ⟨-(.C (z.im * w.im)), ?_⟩
  simp only [QuadraticAlgebra.re_mul, QuadraticAlgebra.im_mul, map_add, map_mul, map_neg, map_one,
    map_zero]
  ring

theorem ofFp2_zero : ofFp2 0 = 0 := by
  ext i
  fin_cases i <;> rfl

theorem twistB2_eq : twistB2 = ofFp2 b2 := by
  have hne : (9 * 9 + 1 * 1 : BaseField) ≠ 0 := by decide +kernel
  have hinv : (⟨9 * (9 * 9 + 1 * 1)⁻¹, -1 * (9 * 9 + 1 * 1)⁻¹⟩ : Fp2) = ninePlusU⁻¹ := by
    apply eq_inv_of_mul_eq_one_left
    ext
    · rw [QuadraticAlgebra.re_mul, ninePlusU, QuadraticAlgebra.re_one]
      linear_combination mul_inv_cancel₀ hne
    · rw [QuadraticAlgebra.im_mul, ninePlusU, QuadraticAlgebra.im_one]
      ring
  have hproduct : twistB2 = ofFp2 ninePlusU⁻¹ * ofFp2 3 := by
    rw [← hinv]
    rfl
  rw [hproduct, ← ofFp2_mul, mul_comm, b2, div_eq_mul_inv]

/-- The coordinates of a point, and `(0, 0)` for the point at infinity. -/
def G2Point.ofPoint : twistCurve.Point → G2Point
  | .zero => ⟨0, 0⟩
  | .some x y _ => ⟨ofFp2 x, ofFp2 y⟩

theorem ofPoint_generator : G2Point.ofPoint TwistCurve.generator = G2Point.generator := rfl

theorem isOnCurve_iff (x y : Fp2) :
    (G2Point.mk (ofFp2 x) (ofFp2 y)).isOnCurve = true ↔ twistCurve.Nonsingular x y := by
  rw [G2Point.isOnCurve, decide_eq_true_iff, twistB2_eq, ← ofFp2_mul, ← ofFp2_mul, ← ofFp2_mul,
    ← ofFp2_add, ofFp2_injective.eq_iff]
  constructor
  · intro h
    exact nonsingular_of_equation (by linear_combination h)
  · intro h
    linear_combination CurveOrder.equation_of_nonsingular h

theorem ofPoint_eq_zero {Q : twistCurve.Point} :
    ((G2Point.ofPoint Q).x = 0 ∧ (G2Point.ofPoint Q).y = 0) ↔ Q = 0 := by
  cases Q with
  | zero => exact iff_of_true ⟨rfl, rfl⟩ rfl
  | some x y h =>
    refine iff_of_false ?_ (WeierstrassCurve.Affine.Point.some_ne_zero h)
    rintro ⟨hx, hy⟩
    obtain rfl := ofFp2_injective (hx.trans ofFp2_zero.symm)
    obtain rfl := ofFp2_injective (hy.trans ofFp2_zero.symm)
    apply b2_ne_zero
    linear_combination -(CurveOrder.equation_of_nonsingular h)

end Pairing
