import LedgerLens.LucasCertificate
import LedgerLens.CurveOrder
import Mathlib.GroupTheory.OrderOfElement
import Mathlib.Algebra.Field.ZMod
import Mathlib.Tactic.NormNum.Prime

/-!
# The BN254 group

`y² = x³ + 3` over the base field, with the generator `(1, 2)` of prime order.
Both moduli are certified prime and the order of the generator is computed, so
nothing about the group is assumed by the modules above. The curve has no other points.
-/
namespace Bn254

open JacobianCoordinates

/-- Modulus of the point coordinates. -/
abbrev fieldModulus : ℕ :=
  21888242871839275222246405745257275088696311157297823662689037894645226208583

/-- Order of the generator, the modulus of every scalar. -/
abbrev curveOrder : ℕ :=
  21888242871839275222246405745257275088548364400416034343698204186575808495617

private def smallPrimes : List ℕ :=
  [2, 3, 5, 7, 11, 13, 17, 19, 23, 29, 31, 37, 41, 47, 53, 67, 71, 73, 83, 89, 107, 109, 127,
    137, 223, 229, 233, 271, 311, 379, 409, 449, 491, 661, 823, 853, 911, 983]

private def primeChain : List LucasCertificate.Entry := [
  ⟨1231, 3, [(2, 1), (3, 1), (5, 1), (41, 1)]⟩,
  ⟨1637, 2, [(2, 2), (409, 1)]⟩,
  ⟨2221, 2, [(2, 2), (3, 1), (5, 1), (37, 1)]⟩,
  ⟨3557, 2, [(2, 2), (7, 1), (127, 1)]⟩,
  ⟨3691, 2, [(2, 1), (3, 2), (5, 1), (41, 1)]⟩,
  ⟨4999, 3, [(2, 1), (3, 1), (7, 2), (17, 1)]⟩,
  ⟨5501, 2, [(2, 2), (5, 3), (11, 1)]⟩,
  ⟨11003, 2, [(2, 1), (5501, 1)]⟩,
  ⟨13327, 3, [(2, 1), (3, 1), (2221, 1)]⟩,
  ⟨20963, 2, [(2, 1), (47, 1), (223, 1)]⟩,
  ⟨41927, 5, [(2, 1), (20963, 1)]⟩,
  ⟨93001, 14, [(2, 3), (3, 1), (5, 3), (31, 1)]⟩,
  ⟨237073, 15, [(2, 4), (3, 1), (11, 1), (449, 1)]⟩,
  ⟨327599, 19, [(2, 1), (19, 1), (37, 1), (233, 1)]⟩,
  ⟨1593227, 2, [(2, 1), (19, 1), (41927, 1)]⟩,
  ⟨1853641, 17, [(2, 3), (3, 2), (5, 1), (19, 1), (271, 1)]⟩,
  ⟨4562087, 5, [(2, 1), (17, 1), (109, 1), (1231, 1)]⟩,
  ⟨173171039, 13, [(2, 1), (73, 1), (89, 1), (13327, 1)]⟩,
  ⟨405928799, 22, [(2, 1), (11, 1), (3691, 1), (4999, 1)]⟩,
  ⟨639533339, 2, [(2, 1), (229, 1), (853, 1), (1637, 1)]⟩,
  ⟨1263766531, 10, [(2, 1), (3, 1), (5, 1), (13, 1), (911, 1), (3557, 1)]⟩,
  ⟨11465965001, 3, [(2, 3), (5, 4), (7, 1), (327599, 1)]⟩,
  ⟨12048837557, 2, [(2, 2), (7, 2), (661, 1), (93001, 1)]⟩,
  ⟨35385462869, 2, [(2, 2), (7, 1), (1263766531, 1)]⟩,
  ⟨5156902474397, 2, [(2, 2), (107, 1), (12048837557, 1)]⟩,
  ⟨1670836401704629, 2, [(2, 2), (3, 4), (5156902474397, 1)]⟩,
  ⟨2480874801745591, 6, [(2, 1), (3, 2), (5, 1), (19, 1), (41, 1), (35385462869, 1)]⟩,
  ⟨65865678001877903, 5, [(2, 1), (83, 1), (379, 1), (1637, 1), (639533339, 1)]⟩,
  ⟨13818364434197438864469338081, 3, [(2, 5), (5, 1), (823, 1), (1593227, 1),
    (65865678001877903, 1)]⟩,
  ⟨13427688667394608761327070753331941386769, 17, [(2, 4), (3, 1), (7, 1), (11, 1),
    (1853641, 1), (4562087, 1), (173171039, 1), (2480874801745591, 1)]⟩,
  ⟨21888242871839275222246405745257275088548364400416034343698204186575808495617, 5, [(2, 28),
    (3, 2), (13, 1), (29, 1), (983, 1), (11003, 1), (237073, 1), (405928799, 1),
    (1670836401704629, 1), (13818364434197438864469338081, 1)]⟩,
  ⟨21888242871839275222246405745257275088696311157297823662689037894645226208583, 3, [(2, 1),
    (3, 2), (13, 1), (29, 1), (67, 1), (229, 1), (311, 1), (983, 1), (11003, 1), (405928799, 1),
    (11465965001, 1), (13427688667394608761327070753331941386769, 1)]⟩]

private theorem small_prime : ∀ q ∈ smallPrimes, q.Prime := by
  norm_num [smallPrimes]

private theorem chain_valid : LucasCertificate.ChainValid smallPrimes primeChain := by
  decide +kernel

theorem fieldModulus_prime : fieldModulus.Prime :=
  LucasCertificate.chain_prime small_prime chain_valid _ (by simp [primeChain])

theorem curveOrder_prime : curveOrder.Prime :=
  LucasCertificate.chain_prime small_prime chain_valid _ (by simp [primeChain])

instance : Fact fieldModulus.Prime := ⟨fieldModulus_prime⟩
instance : Fact curveOrder.Prime := ⟨curveOrder_prime⟩

abbrev BaseField := ZMod fieldModulus
abbrev ScalarField := ZMod curveOrder

abbrev curve : WeierstrassCurve.Affine BaseField := shortCurve 3
abbrev G1Point := curve.Point

theorem two_ne_zero_base : (2 : BaseField) ≠ 0 := by decide +kernel

theorem nonsingular_of_equation {x y : BaseField} (h : y ^ 2 = x ^ 3 + 3) :
    curve.Nonsingular x y := by
  have hΔ : curve.Δ ≠ 0 := by decide +kernel
  refine (WeierstrassCurve.Affine.equation_iff_nonsingular_of_Δ_ne_zero hΔ).mp ?_
  rw [WeierstrassCurve.Affine.equation_iff]
  linear_combination h

def mkPoint (x y : BaseField) (h : y ^ 2 = x ^ 3 + 3) : G1Point :=
  .some x y (nonsingular_of_equation h)

/-- The generator `G1 = (1, 2)`. -/
def generator : G1Point := mkPoint 1 2 (by decide +kernel)

theorem generator_ne_zero : generator ≠ 0 := WeierstrassCurve.Affine.Point.some_ne_zero _

/-- One doubling, checked without a division. -/
def IsDouble (p q : BaseField × BaseField) : Prop :=
  let d := (Triple.affine p.1 p.2).double
  d.z ≠ 0 ∧ d.x = q.1 * d.z ^ 2 ∧ d.y = q.2 * d.z ^ 3

instance (p q : BaseField × BaseField) : Decidable (IsDouble p q) :=
  inferInstanceAs (Decidable (_ ∧ _ ∧ _))

theorem two_nsmul_mkPoint {x y x' y' : BaseField} (h : y ^ 2 = x ^ 3 + 3)
    (h' : y' ^ 2 = x' ^ 3 + 3) (hd : IsDouble (x, y) (x', y')) :
    2 • mkPoint x y h = mkPoint x' y' h' := by
  rw [two_nsmul]
  exact eq_some_of_represents (double_represents two_ne_zero_base (represents_affine _))
    (nonsingular_of_equation h') hd.1 hd.2.1 hd.2.2

def generatorDoubleX : BaseField :=
  1368015179489954701390400359078579693043519447331113978918064868415326638035

def generatorDoubleY : BaseField :=
  9918110051302171585080402603319702774565515993150576347155970296011118125764

theorem two_nsmul_generator :
    2 • generator = mkPoint generatorDoubleX generatorDoubleY (by decide +kernel) :=
  two_nsmul_mkPoint _ _ (by decide +kernel)

def scalarBits (k : ℕ) : List Bool := (List.range 256).reverse.map k.testBit

theorem curveOrder_bits : bitsValue (scalarBits curveOrder) = curveOrder := by decide +kernel

private theorem curveOrder_multiple :
    ((Triple.affine 1 2 : Triple BaseField).mulBits (scalarBits curveOrder)).z = 0 := by
  decide +kernel

theorem curveOrder_smul_generator : curveOrder • generator = 0 := by
  have h := mulBits_represents two_ne_zero_base
    (represents_affine (nonsingular_of_equation (x := 1) (y := 2) (by decide +kernel)))
    (scalarBits curveOrder)
  rw [curveOrder_bits] at h
  exact (represents_zero h).mp curveOrder_multiple

theorem addOrderOf_generator : addOrderOf generator = curveOrder :=
  addOrderOf_eq_prime curveOrder_smul_generator generator_ne_zero

private theorem zmultiples_curveOrder :
    zmultiplesHom G1Point generator (curveOrder : ℤ) = 0 := by
  rw [zmultiplesHom_apply, natCast_zsmul, curveOrder_smul_generator]

def ofScalar : ScalarField →+ G1Point :=
  ZMod.lift curveOrder ⟨zmultiplesHom G1Point generator, zmultiples_curveOrder⟩

@[simp] theorem ofScalar_natCast (k : ℕ) : ofScalar (k : ScalarField) = k • generator := by
  have h := ZMod.lift_coe curveOrder
    ⟨zmultiplesHom G1Point generator, zmultiples_curveOrder⟩ (k : ℤ)
  rw [Int.cast_natCast] at h
  rw [ofScalar, h]
  exact natCast_zsmul generator k

@[simp] theorem ofScalar_one : ofScalar 1 = generator := by
  have h := ofScalar_natCast 1
  rwa [Nat.cast_one, one_nsmul] at h

theorem ofScalar_eq_zero {a : ScalarField} : ofScalar a = 0 ↔ a = 0 := by
  constructor
  · intro h
    rw [← ZMod.natCast_zmod_val a, ofScalar_natCast, ← addOrderOf_dvd_iff_nsmul_eq_zero,
      addOrderOf_generator] at h
    rw [← ZMod.natCast_zmod_val a]
    exact (ZMod.natCast_eq_zero_iff _ _).mpr h
  · rintro rfl
    exact map_zero ofScalar

theorem ofScalar_injective : Function.Injective ofScalar := by
  intro a c h
  rw [← sub_eq_zero, ← map_sub, ofScalar_eq_zero] at h
  exact sub_eq_zero.mp h

private def residueExponent : ℕ := (fieldModulus - 1) / 3

private theorem neg_three_pow : (-3 : BaseField) ^ residueExponent ≠ 1 := by
  have hcast : ((fieldModulus - 3 : ℕ) : BaseField) = -3 := by decide +kernel
  rw [← hcast, Ne, LucasCertificate.pow_eq_one_iff (by norm_num) (by decide +kernel)]
  decide +kernel

theorem cubic_ne_zero (x : BaseField) : x ^ 3 + 3 ≠ 0 := by
  intro hx
  have hexponent : 3 * residueExponent = Fintype.card BaseField - 1 := by
    rw [ZMod.card]
    decide +kernel
  exact CurveOrder.no_cube_root hexponent (by decide +kernel) neg_three_pow x
    (eq_neg_of_add_eq_zero_left hx)

theorem card_G1Point : Nat.card G1Point = curveOrder := by
  have hbound : 2 * Fintype.card BaseField + 1 < 3 * addOrderOf generator := by
    rw [addOrderOf_generator, ZMod.card]
    norm_num
  rw [CurveOrder.card_eq_addOrderOf two_ne_zero_base cubic_ne_zero hbound, addOrderOf_generator]

theorem curveOrder_smul (P : G1Point) : curveOrder • P = 0 := by
  rw [← card_G1Point]
  exact card_nsmul_eq_zero'

theorem nsmul_ofScalar (k : ℕ) (a : ScalarField) : k • ofScalar a = ofScalar (k * a) := by
  rw [← map_nsmul, nsmul_eq_mul]

theorem val_nsmul_ofScalar (k a : ScalarField) : k.val • ofScalar a = ofScalar (k * a) := by
  rw [nsmul_ofScalar, ZMod.natCast_zmod_val]

end Bn254
