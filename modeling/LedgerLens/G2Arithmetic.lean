import LedgerLens.Pairing
import LedgerLens.Proofs.PointArithmetic

/-!
# Affine arithmetic on the twist

`G2Point` of `contracts/zk_verifier/src/pairing.rs`: negation, doubling, addition and the scalar
multiplication of its two loops, against the group of the twisted curve.
-/
namespace Pairing

open Bn254 ExtensionFields JacobianCoordinates TwistCurve ZkVerifierCurve ZkVerifierWords

def two (a : Fq2) : Fq2 := ⟨fun i => a.c i + a.c i⟩

/-- The loops of the scalar multiplication, over the operations they call. The first one doubles
from the highest bit on, the second one doubles and adds below it. -/
def scalarLoops {G : Type*} (double : G → G) (add : G → G → G) (infinity p : G) (k : U256) : G :=
  let scanned := (List.range k.bitLength).reverse.foldl (fun (s : G × Bool) i =>
    (if s.2 then double s.1 else s.1, s.2 || k.bit i)) (p, false)
  if !scanned.2 then infinity
  else (List.range (k.bitLength - 1)).reverse.foldl (fun result i =>
    let doubled := double result
    if k.bit i then add doubled p else doubled) scanned.1

namespace G2Point

def infinity : G2Point := ⟨0, 0⟩

def isZero (q : G2Point) : Prop := q.x = 0 ∧ q.y = 0

instance (q : G2Point) : Decidable q.isZero := inferInstanceAs (Decidable (_ ∧ _))

def neg (q : G2Point) : G2Point := ⟨q.x, conjugate q.y⟩

/-- The slope is `3 x²` times twice the inverse of `y`. -/
def double (q : G2Point) : G2Point :=
  if q.isZero then q
  else
    let xSq := q.x * q.x
    let m := (xSq + xSq + xSq) * two (invert2 q.y)
    let x3 := m * m - q.x - q.x
    ⟨x3, m * (q.x - x3) - q.y⟩

def add (q other : G2Point) : G2Point :=
  if q.isZero then other
  else if other.isZero then q
  else
    let h := other.x - q.x
    let r := other.y - q.y
    if h = 0 then
      if r = 0 then q.double else infinity
    else
      let m := r * invert2 h
      let x3 := m * m - q.x - other.x
      ⟨x3, m * (q.x - x3) - q.y⟩

def mulScalar (q : G2Point) (scalar : Fr) : G2Point :=
  scalarLoops double add infinity q scalar.val

end G2Point

theorem ofFp2_sub (z w : Fp2) : ofFp2 (z - w) = ofFp2 z - ofFp2 w := by
  ext i
  fin_cases i <;> rfl

theorem two_ofFp2 (z : Fp2) : two (ofFp2 z) = ofFp2 (2 * z) := by
  rw [two_mul]
  ext i
  fin_cases i <;> rfl

theorem conjugate_ofFp2 (z : Fp2) : conjugate (ofFp2 z) = ofFp2 ⟨z.re, -z.im⟩ := rfl

theorem invert2_ofFp2 (z : Fp2) : invert2 (ofFp2 z) = ofFp2 z⁻¹ := by
  have hvalue : invert2 (ofFp2 z) = ofFp2 ⟨z.re * (z.re * z.re + z.im * z.im)⁻¹,
      -z.im * (z.re * z.re + z.im * z.im)⁻¹⟩ := rfl
  rw [hvalue]
  congr 1
  by_cases hz : z = 0
  · subst hz
    rw [inv_zero]
    ext <;> simp
  · have hnorm : z.re * z.re + z.im * z.im ≠ 0 := by
      intro h
      have hproduct : z * ⟨z.re, -z.im⟩ = 0 := by
        ext
        · rw [QuadraticAlgebra.re_mul, QuadraticAlgebra.re_zero]
          linear_combination h
        · rw [QuadraticAlgebra.im_mul, QuadraticAlgebra.im_zero]
          ring
      rcases mul_eq_zero.mp hproduct with h0 | h0
      · exact hz h0
      · have hre := congrArg QuadraticAlgebra.re h0
        have him := congrArg QuadraticAlgebra.im h0
        rw [QuadraticAlgebra.re_zero] at hre
        rw [QuadraticAlgebra.im_zero, neg_eq_zero] at him
        exact hz (QuadraticAlgebra.ext hre him)
    apply eq_inv_of_mul_eq_one_right
    ext
    · rw [QuadraticAlgebra.re_mul, QuadraticAlgebra.re_one]
      linear_combination mul_inv_cancel₀ hnorm
    · rw [QuadraticAlgebra.im_mul, QuadraticAlgebra.im_one]
      ring

/-- The norm of `9 + u` is `82`, no square of the base field. -/
theorem b2_not_square (y : Fp2) : y ^ 2 ≠ b2 := by
  intro h
  have hscaled : y * y * ninePlusU = 3 := by
    rw [← sq, h, b2, div_mul_cancel₀ _ ninePlusU_ne_zero]
  have hre := congrArg QuadraticAlgebra.re hscaled
  have him := congrArg QuadraticAlgebra.im hscaled
  have hthree : (3 : Fp2) = ⟨3, 0⟩ := by decide +kernel
  have hnine : ((9 : ℕ) : BaseField) = 9 := by norm_num
  simp only [QuadraticAlgebra.re_mul, QuadraticAlgebra.im_mul, ninePlusU, hthree, hnine] at hre him
  have hnorm : 82 * (y.re * y.re + y.im * y.im) ^ 2 = 9 := by
    linear_combination
      (9 * (y.re * y.re - y.im * y.im) - 2 * y.re * y.im + 3) * hre +
        (18 * y.re * y.im + (y.re * y.re - y.im * y.im)) * him
  have hne : y.re * y.re + y.im * y.im ≠ 0 := by
    intro h0
    rw [h0] at hnorm
    exact absurd hnorm (by decide +kernel)
  have hsquare : IsSquare ((82 : ℕ) : BaseField) := by
    refine ⟨3 / (y.re * y.re + y.im * y.im), ?_⟩
    rw [div_mul_div_comm, eq_div_iff (mul_ne_zero hne hne)]
    push_cast
    linear_combination hnorm
  rw [ZMod.euler_criterion fieldModulus (by decide +kernel),
    LucasCertificate.pow_eq_one_iff (by norm_num) (by decide +kernel)] at hsquare
  revert hsquare
  decide +kernel

theorem ofPoint_some {x y : Fp2} (h : twistCurve.Nonsingular x y) :
    G2Point.ofPoint (.some x y h) = ⟨ofFp2 x, ofFp2 y⟩ := rfl

theorem isZero_ofPoint {P : twistCurve.Point} : (G2Point.ofPoint P).isZero ↔ P = 0 :=
  ofPoint_eq_zero

theorem ofPoint_stays (P : twistCurve.Point) :
    G2Point.ofPoint P = .infinity ∨ (G2Point.ofPoint P).isOnCurve = true := by
  cases P with
  | zero => exact .inl rfl
  | some x y h => exact .inr ((isOnCurve_iff x y).mpr h)

theorem double_infinity : G2Point.infinity.double = .infinity := if_pos ⟨rfl, rfl⟩

theorem double_ofPoint {x y : Fp2} (h : twistCurve.Nonsingular x y) :
    (G2Point.ofPoint (.some x y h)).double =
      ⟨ofFp2 ((6 * x ^ 2 * y⁻¹) ^ 2 - 2 * x),
        ofFp2 (6 * x ^ 2 * y⁻¹ * (3 * x - (6 * x ^ 2 * y⁻¹) ^ 2) - y)⟩ := by
  have hz : ¬ (G2Point.ofPoint (.some x y h)).isZero := by
    rw [isZero_ofPoint]
    exact WeierstrassCurve.Affine.Point.some_ne_zero h
  rw [G2Point.double, if_neg hz]
  simp only [G2Point.ofPoint, invert2_ofFp2, two_ofFp2, ← ofFp2_mul, ← ofFp2_add, ← ofFp2_sub]
  congr 2
  · ring
  · ring

/-- The slope is four times that of the tangent. -/
theorem double_iff (P : twistCurve.Point) :
    (G2Point.ofPoint P).double = .ofPoint (P + P) ↔ P = 0 := by
  cases P with
  | zero => exact iff_of_true double_infinity rfl
  | some x y h =>
    refine iff_of_false ?_ (WeierstrassCurve.Affine.Point.some_ne_zero h)
    intro heq
    have hcurve := CurveOrder.equation_of_nonsingular h
    have hx : x ≠ 0 := by
      rintro rfl
      apply b2_not_square y
      linear_combination hcurve
    rw [double_ofPoint] at heq
    by_cases hy : y = 0
    · have hneg : y = twistCurve.negY x y := by simp [WeierstrassCurve.Affine.negY, hy]
      rw [WeierstrassCurve.Affine.Point.add_self_of_Y_eq hneg] at heq
      have hX := ofFp2_injective ((G2Point.mk.inj heq).1.trans ofFp2_zero.symm)
      rw [hy, inv_zero] at hX
      have hzero : 2 * x = 0 := by linear_combination -hX
      exact (mul_ne_zero two_ne_zero_fp2 hx) hzero
    · have hne : y ≠ twistCurve.negY x y := by
        intro he
        have hyy : y = -y := by simpa [WeierstrassCurve.Affine.negY] using he
        have hzero : 2 * y = 0 := by linear_combination hyy
        exact (mul_ne_zero two_ne_zero_fp2 hy) hzero
      have hslope : twistCurve.slope x x y y = 3 * x ^ 2 / (2 * y) := by
        rw [WeierstrassCurve.Affine.slope_of_Y_ne rfl hne]
        simp only [WeierstrassCurve.Affine.negY]
        congr 1 <;> ring
      rw [WeierstrassCurve.Affine.Point.add_self_of_Y_ne hne] at heq
      have hX := ofFp2_injective (G2Point.mk.inj heq).1
      rw [hslope, WeierstrassCurve.Affine.addX] at hX
      have hpow : 135 * x ^ 4 = 0 := by
        have h2 := two_ne_zero_fp2
        field_simp at hX
        linear_combination hX
      rcases mul_eq_zero.mp hpow with h0 | h0
      · exact absurd h0 (by decide +kernel)
      · exact hx (pow_eq_zero_iff (by decide) |>.mp h0)

theorem neg_iff (P : twistCurve.Point) : (G2Point.ofPoint P).neg = .ofPoint (-P) ↔
    P = 0 ∨ ((G2Point.ofPoint P).y).c 0 = 0 := by
  cases P with
  | zero =>
    have hconj : conjugate 0 = 0 := by rw [← ofFp2_zero, conjugate_ofFp2]; rfl
    refine iff_of_true ?_ (.inl rfl)
    change (⟨0, conjugate 0⟩ : G2Point) = ⟨0, 0⟩
    rw [hconj]
  | some x y h =>
    have hne := WeierstrassCurve.Affine.Point.some_ne_zero h
    have hneg : twistCurve.negY x y = -y := by simp [WeierstrassCurve.Affine.negY]
    rw [WeierstrassCurve.Affine.Point.neg_some, or_iff_right hne]
    have hy : ((G2Point.ofPoint (.some x y h)).y).c 0 = y.re := rfl
    have hconj : (⟨y.re, -y.im⟩ : Fp2) = -y ↔ y.re = 0 := by
      constructor
      · intro heq
        have hre := congrArg QuadraticAlgebra.re heq
        rw [QuadraticAlgebra.re_neg] at hre
        have hdouble : 2 * y.re = 0 := by linear_combination hre
        exact (mul_eq_zero.mp hdouble).resolve_left two_ne_zero_base
      · intro hre
        ext
        · rw [QuadraticAlgebra.re_neg, hre, neg_zero]
        · rw [QuadraticAlgebra.im_neg]
    rw [hy, ← hconj, ← hneg, ofPoint_some, ofPoint_some, G2Point.neg, conjugate_ofFp2,
      G2Point.mk.injEq, ofFp2_injective.eq_iff, ofFp2_injective.eq_iff]
    exact and_iff_right rfl

/-- Distinct points are added by the chord; equal ones fall to the doubling. -/
theorem add_iff (P Q : twistCurve.Point) :
    (G2Point.ofPoint P).add (.ofPoint Q) = .ofPoint (P + Q) ↔ P = 0 ∨ P ≠ Q := by
  by_cases hP : P = 0
  · refine iff_of_true ?_ (.inl hP)
    rw [G2Point.add, if_pos (isZero_ofPoint.mpr hP), hP, zero_add]
  rw [or_iff_right hP, G2Point.add, if_neg (fun h => hP (isZero_ofPoint.mp h))]
  by_cases hQ : Q = 0
  · refine iff_of_true ?_ (fun h => hP (h.trans hQ))
    rw [if_pos (isZero_ofPoint.mpr hQ), hQ, add_zero]
  rw [if_neg (fun h => hQ (isZero_ofPoint.mp h))]
  cases P with
  | zero => exact absurd rfl hP
  | some x y h =>
    cases Q with
    | zero => exact absurd rfl hQ
    | some x' y' h' =>
      have hh : ofFp2 x' - ofFp2 x = 0 ↔ x = x' := by
        rw [← ofFp2_sub, ← ofFp2_zero, ofFp2_injective.eq_iff, sub_eq_zero, eq_comm]
      have hr : ofFp2 y' - ofFp2 y = 0 ↔ y = y' := by
        rw [← ofFp2_sub, ← ofFp2_zero, ofFp2_injective.eq_iff, sub_eq_zero, eq_comm]
      simp only [ofPoint_some, hh, hr]
      by_cases hx : x = x'
      · subst hx
        rw [if_pos rfl]
        by_cases hy : y = y'
        · subst hy
          rw [if_pos rfl, ← ofPoint_some h]
          exact iff_of_false (mt (double_iff _).mp hP) (not_not.mpr rfl)
        · have hneg : y = twistCurve.negY x y' :=
            (WeierstrassCurve.Affine.Y_eq_of_X_eq h.1 h'.1 rfl).resolve_left hy
          rw [if_neg hy, WeierstrassCurve.Affine.Point.add_of_Y_eq rfl hneg]
          exact iff_of_true rfl fun heq =>
            hy ((WeierstrassCurve.Affine.Point.some.injEq ..).mp heq).2
      · have hdx : x - x' ≠ 0 := sub_ne_zero.mpr hx
        have hdx' : x' - x ≠ 0 := sub_ne_zero.mpr (Ne.symm hx)
        have hslope : (y' - y) * (x' - x)⁻¹ = (y - y') / (x - x') := by
          field_simp
          ring
        refine iff_of_true ?_ fun heq => hx ((WeierstrassCurve.Affine.Point.some.injEq ..).mp heq).1
        rw [if_neg hx, WeierstrassCurve.Affine.Point.add_of_X_ne hx, ofPoint_some,
          WeierstrassCurve.Affine.slope_of_X_ne hx]
        simp only [← ofFp2_sub, invert2_ofFp2, ← ofFp2_mul, hslope]
        congr 2
        · rw [WeierstrassCurve.Affine.addX]
          ring
        · rw [WeierstrassCurve.Affine.addY, WeierstrassCurve.Affine.negAddY,
            WeierstrassCurve.Affine.addX, WeierstrassCurve.Affine.negY]
          ring

section Loops

variable {G : Type*} [AddCommMonoid G] (P : G)

/-- The first loop doubles once for each bit below the highest. -/
theorem scanned_eq {k : U256} (h : k.toNat ≠ 0) :
    (List.range k.bitLength).reverse.foldl (fun (s : G × Bool) i =>
      (if s.2 then s.1 + s.1 else s.1, s.2 || k.bit i)) (P, false) =
        (2 ^ (k.bitLength - 1) • P, true) := by
  have hfound (n : ℕ) (Q : G) : (List.range n).reverse.foldl (fun (s : G × Bool) i =>
      (if s.2 then s.1 + s.1 else s.1, s.2 || k.bit i)) (Q, true) = (2 ^ n • Q, true) := by
    induction n generalizing Q with
    | zero => simp
    | succ n ih =>
      rw [foldl_downwards, if_pos rfl, Bool.true_or, ih, ← two_nsmul, ← mul_nsmul', pow_succ]
  obtain ⟨hpos, htop⟩ := U256.bit_top h
  obtain ⟨n, hn⟩ := Nat.exists_eq_add_of_le' hpos
  rw [hn, Nat.add_sub_cancel] at htop ⊢
  rw [foldl_downwards, if_neg (by simp), htop, Bool.or_true, hfound]

theorem doubleAdd_eq (k : U256) (n c : ℕ) : (List.range n).reverse.foldl (fun (Q : G) i =>
    let doubled := Q + Q
    if k.bit i then doubled + P else doubled) (c • P) = (c * 2 ^ n + k.toNat % 2 ^ n) • P := by
  induction n generalizing c with
  | zero => simp [Nat.mod_one]
  | succ n ih =>
    have hstep : (let doubled := c • P + c • P
        if k.bit n then doubled + P else doubled) =
          (2 * c + k.toNat / 2 ^ n % 2) • P := by
      rw [U256.bit_eq, Nat.testBit_eq_decide_div_mod_eq, ← add_nsmul, ← two_mul]
      rcases Nat.mod_two_eq_zero_or_one (k.toNat / 2 ^ n) with h0 | h1
      · simp [h0]
      · simp [h1, add_nsmul]
    rw [foldl_downwards, hstep, ih, Nat.mod_pow_succ, pow_succ]
    congr 1
    ring

theorem scalarLoops_eq {k : U256} (h : k.toNat ≠ 0) :
    scalarLoops (fun Q : G => Q + Q) (· + ·) 0 P k =
      (2 ^ (k.bitLength - 1) * 2 ^ (k.bitLength - 1) + k.toNat % 2 ^ (k.bitLength - 1)) • P := by
  rw [scalarLoops, scanned_eq P h, ← doubleAdd_eq]
  rfl

end Loops

theorem mulScalar_infinity (k : Fr) :
    G2Point.infinity.mulScalar k = .infinity := by
  have hzero : G2Point.infinity.isZero := ⟨rfl, rfl⟩
  have hscan (l : List ℕ) (found : Bool) : (l.foldl (fun (s : G2Point × Bool) i =>
      (if s.2 then s.1.double else s.1, s.2 || k.val.bit i)) (.infinity, found)).1 = .infinity := by
    induction l generalizing found with
    | nil => rfl
    | cons i l ih =>
      rw [List.foldl_cons, double_infinity, ite_self]
      exact ih _
  have hloop (l : List ℕ) : l.foldl (fun result i =>
      let doubled := result.double
      if k.val.bit i then doubled.add .infinity else doubled) G2Point.infinity = .infinity := by
    induction l with
    | nil => rfl
    | cons i l ih =>
      rw [List.foldl_cons, double_infinity]
      simp only [G2Point.add, hzero, if_true, ite_self]
      exact ih
  rw [G2Point.mulScalar, scalarLoops]
  simp only [hscan, hloop, ite_self]

structure FollowsTwistLaw (P Q : twistCurve.Point) (k : Fr) : Prop where
  double : (G2Point.ofPoint P).double = .ofPoint (P + P)
  add : (G2Point.ofPoint P).add (.ofPoint Q) = .ofPoint (P + Q)
  double_eq_add : (G2Point.ofPoint P).double = (G2Point.ofPoint P).add (.ofPoint P)
  neg : (G2Point.ofPoint P).neg = .ofPoint (-P)
  add_neg : (G2Point.ofPoint P).add (G2Point.ofPoint P).neg = .infinity
  mulScalar : (G2Point.ofPoint P).mulScalar k = .ofPoint (k.val.toNat • P)
  stays : ∀ q ∈ [(G2Point.ofPoint P).double, (G2Point.ofPoint P).add (.ofPoint Q),
    (G2Point.ofPoint P).neg, (G2Point.ofPoint P).mulScalar k],
    q = .infinity ∨ q.isOnCurve = true

/-- The doubling is right for the point at infinity only, and there everything is. -/
theorem followsTwistLaw_iff (P Q : twistCurve.Point) (k : Fr) :
    FollowsTwistLaw P Q k ↔ P = 0 := by
  constructor
  · intro h
    exact (double_iff P).mp h.double
  · rintro rfl
    have hinf : G2Point.ofPoint 0 = .infinity := rfl
    have hneg := (neg_iff 0).mpr (.inl rfl)
    have hdouble := (double_iff 0).mpr rfl
    have hadd := (add_iff 0 Q).mpr (.inl rfl)
    have hadd0 := (add_iff 0 0).mpr (.inl rfl)
    have hmul : (G2Point.ofPoint 0).mulScalar k = .ofPoint (k.val.toNat • 0) := by
      rw [nsmul_zero, hinf, mulScalar_infinity]
    refine ⟨hdouble, hadd, hdouble.trans hadd0.symm, hneg, ?_, hmul, ?_⟩
    · rw [hneg, neg_zero, hadd0, add_zero, hinf]
    · intro q hq
      rw [hdouble, hadd, hneg, hmul] at hq
      simp only [List.mem_cons, List.not_mem_nil, or_false] at hq
      rcases hq with rfl | rfl | rfl | rfl <;> exact ofPoint_stays _

theorem not_followsTwistLaw_generator :
    G2Point.generator.double ≠ .ofPoint (TwistCurve.generator + TwistCurve.generator) ∧
      G2Point.generator.neg ≠ .ofPoint (-TwistCurve.generator) ∧
      ¬ FollowsTwistLaw TwistCurve.generator 0 (.fromU64 2) := by
  have hdouble := mt (double_iff TwistCurve.generator).mp TwistCurve.generator_ne_zero
  refine ⟨hdouble, ?_, fun h => hdouble h.double⟩
  rw [← ofPoint_generator, Ne, neg_iff, or_iff_right TwistCurve.generator_ne_zero]
  decide +kernel

end Pairing
