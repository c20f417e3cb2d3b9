import LedgerLens.Bn254
import Mathlib.Algebra.QuadraticAlgebra.Basic
import Mathlib.NumberTheory.LegendreSymbol.Basic

/-!
# The second BN254 group

`y² = x³ + 3 / (9 + u)` over the quadratic extension of the base field, with the generator of the
contract. Its points of the order of the scalars are the multiples of the generator: the curve has a
point of another order, and too few points for a second subgroup.
-/
namespace TwistCurve

open Bn254 JacobianCoordinates

/-- `Fp[u]` with `u² = -1`. -/
abbrev Fp2 := QuadraticAlgebra BaseField (-1) 0

instance : Fact (∀ r : BaseField, r ^ 2 ≠ -1 + 0 * r) := ⟨by
  intro r h
  have hsquare : IsSquare (-1 : BaseField) := ⟨r, by rw [← sq, h]; ring⟩
  exact ZMod.exists_sq_eq_neg_one_iff.mp hsquare (by norm_num)⟩

instance : Fintype Fp2 := Fintype.ofEquiv _ (QuadraticAlgebra.equivProd (-1) 0).symm

theorem card_Fp2 : Fintype.card Fp2 = fieldModulus * fieldModulus := by
  rw [Fintype.ofEquiv_card, Fintype.card_prod, ZMod.card]

theorem two_ne_zero_fp2 : (2 : Fp2) ≠ 0 := by decide +kernel

def ninePlusU : Fp2 := ⟨((9 : ℕ) : BaseField), 1⟩

theorem ninePlusU_ne_zero : ninePlusU ≠ 0 := by decide +kernel

def b2 : Fp2 := 3 / ninePlusU

abbrev twistCurve : WeierstrassCurve.Affine Fp2 := shortCurve b2

theorem b2_ne_zero : b2 ≠ 0 := div_ne_zero (by decide +kernel) ninePlusU_ne_zero

theorem equation_of_scaled {x y : Fp2} (h : ninePlusU * (y * y - x * x * x) = 3) :
    y ^ 2 = x ^ 3 + b2 := by
  rw [b2, ← h, mul_div_cancel_left₀ _ ninePlusU_ne_zero]
  ring

theorem nonsingular_of_equation {x y : Fp2} (h : y ^ 2 = x ^ 3 + b2) :
    twistCurve.Nonsingular x y := by
  have hΔ : twistCurve.Δ ≠ 0 := by
    have hvalue : twistCurve.Δ = -432 * b2 ^ 2 := by
      simp only [WeierstrassCurve.Δ, WeierstrassCurve.b₂, WeierstrassCurve.b₄,
        WeierstrassCurve.b₆, WeierstrassCurve.b₈]
      ring
    rw [hvalue]
    exact mul_ne_zero (by decide +kernel) (pow_ne_zero 2 b2_ne_zero)
  refine (WeierstrassCurve.Affine.equation_iff_nonsingular_of_Δ_ne_zero hΔ).mp ?_
  rw [WeierstrassCurve.Affine.equation_iff]
  linear_combination h

def mkPoint (x y : Fp2) (h : ninePlusU * (y * y - x * x * x) = 3) : twistCurve.Point :=
  .some x y (nonsingular_of_equation (equation_of_scaled h))

def generatorX : Fp2 :=
  ⟨0x1800deef121f1e76426a00665e5c4479674322d4f75edadd46debd5cd992f6ed,
    0x198e9393920d483a7260bfb731fb5d25f1aa493335a9e71297e485b7aef312c2⟩

def generatorY : Fp2 :=
  ⟨0x12c85ea5db8c6deb4aab71808dcb408fe3d1e7690c43d37b4ce6cc0166fa7daa,
    0x090689d0585ff075ec9e99ad690c3395bc4b313370b38ef355acdadcd122975b⟩

/-- The generator `G2` of the contract. -/
def generator : twistCurve.Point := mkPoint generatorX generatorY (by decide +kernel)

theorem generator_ne_zero : generator ≠ 0 := WeierstrassCurve.Affine.Point.some_ne_zero _

theorem smul_mkPoint_eq_zero {x y : Fp2} (h : ninePlusU * (y * y - x * x * x) = 3) {k : ℕ}
    (hbits : bitsValue (scalarBits k) = k)
    (hz : ((Triple.affine x y).mulBits (scalarBits k)).z = 0) : k • mkPoint x y h = 0 := by
  have hmul := mulBits_represents two_ne_zero_fp2
    (represents_affine (nonsingular_of_equation (equation_of_scaled h))) (scalarBits k)
  rw [hbits] at hmul
  exact (represents_zero hmul).mp hz

theorem curveOrder_smul_generator : curveOrder • generator = 0 :=
  smul_mkPoint_eq_zero _ curveOrder_bits (by decide +kernel)

theorem addOrderOf_generator : addOrderOf generator = curveOrder :=
  addOrderOf_eq_prime curveOrder_smul_generator generator_ne_zero

/-- A prime factor of the number of points over the order of the generator. -/
abbrev cofactorPrime : ℕ := 10069

instance : Fact cofactorPrime.Prime := ⟨by norm_num⟩

def cofactorPoint : twistCurve.Point :=
  mkPoint ⟨10055336645499400472467866896663583646658575655654246678460509670547343162740,
      14066267285379327547571384912244839003486979581938646491273947181561574398417⟩
    ⟨14646107077736400806773013424225588621110742892896383938808720506698569140753,
      2586544175131426305409667600075131878999631858911295927522049773227777873633⟩
    (by decide +kernel)

theorem addOrderOf_cofactorPoint : addOrderOf cofactorPoint = cofactorPrime :=
  addOrderOf_eq_prime (smul_mkPoint_eq_zero _ (by decide +kernel) (by decide +kernel))
    (WeierstrassCurve.Affine.Point.some_ne_zero _)

instance : Finite twistCurve.Point := Finite.of_injective _ CurveOrder.coordinates_injective

def G2Group : AddSubgroup twistCurve.Point := (nsmulAddMonoidHom curveOrder).ker

theorem G2Group_eq : G2Group = AddSubgroup.zmultiples generator := by
  refine le_antisymm (fun Q hQ => ?_) ?_
  · have hcoprime : (addOrderOf cofactorPoint).Coprime curveOrder := by
      rw [addOrderOf_cofactorPoint]
      norm_num
    have hcard : Nat.card twistCurve.Point <
        curveOrder * curveOrder * addOrderOf cofactorPoint := by
      refine CurveOrder.card_point_le.trans_lt ?_
      rw [card_Fp2, addOrderOf_cofactorPoint]
      norm_num
    exact CurveOrder.mem_zmultiples_of_card_lt curveOrder_prime addOrderOf_generator hcoprime
      hcard hQ
  · rw [AddSubgroup.zmultiples_le]
    exact curveOrder_smul_generator

theorem card_G2Group : Nat.card G2Group = curveOrder := by
  rw [G2Group_eq, Nat.card_zmultiples, addOrderOf_generator]

end TwistCurve
