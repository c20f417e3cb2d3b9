import LedgerLens.Bn254Twist
import LedgerLens.PackedFields
import LedgerLens.Pairing

/-!
# The pairing is not bilinear

The loop evaluates each line once and never squares what it has, and the points of the loop leave
the curve. The pairing is compared with the group laws of both curves.
-/
namespace Pairing

open Bn254 ByteStrings ExtensionFields JacobianCoordinates MillerLoop PackedFields TwistCurve

/-- Odd, so that the lowest bits of a number depend on all of its digits. -/
def packBase : ℕ := 3 ^ 485

abbrev PackedFq12 := Packed fieldModulus 6 18 82 packBase

theorem fits : Fits fieldModulus 6 18 82 packBase :=
  ⟨by norm_num, by norm_num, by norm_num, by norm_num, by decide +kernel⟩

def packFq12 : Fq12 → PackedFq12 := @Packed.ofField fieldModulus 6 18 82 packBase _

theorem packFq12_faithful : Faithful packFq12 where
  injective := Packed.ofField_injective fits
  zero := Packed.ofField_zero
  one := Packed.ofField_one (by norm_num)
  add := Packed.ofField_add fits
  sub := Packed.ofField_sub fits
  mul := Packed.ofField_mulWith fits modulus_fq12

/-- Numerators and denominators apart. -/
def mulPair (x line : PackedFq12 × PackedFq12) : PackedFq12 × PackedFq12 :=
  (x.1 * line.1, x.2 * line.2)

def packedFrobenius (x : PackedFq12) : PackedFq12 := x.pow fieldModulus 256

theorem packedFrobenius_eq (a : Fq12) :
    packFq12 (powBeBytes FQ12_MODULUS a (toBigEndian 32 fieldModulus)) =
      packedFrobenius (packFq12 a) := by
  have hbytes : ofBigEndian (toBigEndian 32 fieldModulus) = fieldModulus :=
    ofBigEndian_toBigEndian 32 fieldModulus (by norm_num)
  have hbits : ofBigEndian (toBigEndian 32 fieldModulus) < 2 ^ 256 := by
    rw [hbytes]
    norm_num
  have h := Packed.ofField_powBeBytes fits modulus_fq12 a hbits
  rwa [hbytes] at h

def packedLines (q : G2Point) (x y : BaseField) : PackedFq12 × PackedFq12 :=
  let q12 := mapTriple packFq12 (twist q)
  let q1 := (packedFrobenius q12.x, packedFrobenius q12.y)
  let q2 := (packedFrobenius q1.1, packedFrobenius q1.2)
  millerLoop mulPair (1, 1) q12 (mapTriple packFq12 ⟨extendG1 x, extendG1 y, 1⟩) ⟨q1.1, q1.2, 1⟩
    ⟨q2.1, 0 - q2.2, 1⟩

/-- What the loop of the code has, against the numerators and denominators of its lines. -/
def LinesOf (f : Fq12) (x : PackedFq12 × PackedFq12) : Prop :=
  ∃ num den, x = (packFq12 num, packFq12 den) ∧
    (IsUnit (target den) → target f * target den = target num)

theorem linesOf_one : LinesOf 1 (1, 1) := by
  have hone : packFq12 1 = 1 := packFq12_faithful.one
  exact ⟨1, 1, by rw [hone], fun _ => by rw [target_one, one_mul]⟩

theorem LinesOf.step (f : Fq12) (x : PackedFq12 × PackedFq12) (n d : Fq12) (h : LinesOf f x) :
    LinesOf (mulLine f (n, d)) (mulPair x (packFq12 n, packFq12 d)) := by
  obtain ⟨num, den, rfl, hunit⟩ := h
  refine ⟨num * n, den * d, ?_, fun hden => ?_⟩
  · rw [mulPair, packFq12_faithful.mul, packFq12_faithful.mul]
  · rw [target_mul, IsUnit.mul_iff] at hden
    have hinv : target (invertWith FQ12_MODULUS d) * target d = 1 :=
      embed_invertWith d (by norm_num) hden.2
    rw [mulLine, target_mul, target_mul, target_mul, target_mul, ← hunit hden.1]
    linear_combination (target f * target den * target n) * hinv

theorem toAffine_affine (x y : BaseField) : toAffine (.affine x y) = (x, y) := by
  rw [toAffine, Triple.affine, if_neg one_ne_zero]
  simp only [inv_one, mul_one]

theorem pairing_affine {q : G2Point} (hq : ¬(q.x = 0 ∧ q.y = 0)) (x y : BaseField) :
    ∃ f, pairing q (.affine x y) = powBeBytes FQ12_MODULUS f FINAL_EXPONENT_BYTES ∧
      LinesOf f (packedLines q x y) := by
  have hfinite : ¬((Triple.affine x y).z = 0 ∨ q.x = 0 ∧ q.y = 0) :=
    not_or.mpr ⟨one_ne_zero, hq⟩
  rw [pairing, if_neg hfinite]
  refine ⟨_, rfl, ?_⟩
  have hrel := millerLoop_rel packFq12_faithful LinesOf.step linesOf_one (twist q)
    (embedG1Jacobian (.affine x y))
    ⟨(frobeniusTwist ((twist q).x, (twist q).y)).1,
      (frobeniusTwist ((twist q).x, (twist q).y)).2, 1⟩
    ⟨(frobeniusTwist2 ((twist q).x, (twist q).y)).1,
      0 - (frobeniusTwist2 ((twist q).x, (twist q).y)).2, 1⟩
  simp only [mapTriple, frobeniusTwist2, frobeniusTwist, packedFrobenius_eq,
    packFq12_faithful.one, packFq12_faithful.sub, packFq12_faithful.zero] at hrel
  simp only [embedG1Jacobian, toAffine_affine] at hrel ⊢
  exact hrel

def packedPower (x : PackedFq12) : PackedFq12 := x.pow ((fieldModulus ^ 12 - 1) / curveOrder) 2790

theorem packedPower_eq (a : Fq12) :
    packFq12 (powBeBytes FQ12_MODULUS a FINAL_EXPONENT_BYTES) = packedPower (packFq12 a) := by
  have hbits : ofBigEndian FINAL_EXPONENT_BYTES < 2 ^ 2790 := by
    rw [ofBigEndian_finalExponent]
    decide +kernel
  have h := Packed.ofField_powBeBytes fits modulus_fq12 a hbits
  rwa [ofBigEndian_finalExponent] at h

def lineInverse : Fq12 :=
  let fq (word : ℕ) : BaseField := word
  ⟨![fq 0x2773de6b5cb78aa5410cef10a738c48d02b93750e27f3e664613abd4d891bdc0,
      fq 0x22dada684e82489bab686590f3ffefdba88fec0dfaa4ed5351e0e3875370516c,
      fq 0x12f14312f19a23758361283ea5df271f93f0adc2b315c96b747dc271899794f3,
      fq 0x0a31a4625e45cd972dc44aa711ebca13b3b674b7bf0e3eac836a3f27f26b8a60,
      fq 0x07e06941e46353b32d96bfdb55de9bdb40f62716a079e5b50d12d5b2e4f9d1d8,
      fq 0x0b6b6d1903aff6c2959fad69d4638c6a679ad592f2f1662d5d6acbab089d8a9e,
      fq 0x1c1112d126be68545e51c313f881bff1cb1ddbc90ac4e5dbd0951cddf3cc9061,
      fq 0x11f8380ea7333300488840c820165fc387411fd6ff1e94fdc7c21b32adad027c,
      fq 0x281e7bf297b062364ec896c60049cba60d899abf47c7561edcf02e64fab880f6,
      fq 0x1dc3fc8cb5bcfb377ca67d756701a682310aef93f0ca6a62ccd42b9de838c6f0,
      fq 0x26f3ab08aa138442491110d54b269d0593f072c5d533f253531560b97d960dd2,
      fq 0x17520cb1e754247d053746e7eadefd616610693ccab90a679f00cfd91d3213d5]⟩

def lineRatio : Fq12 :=
  let fq (word : ℕ) : BaseField := word
  ⟨![fq 0x1e411bd550ced5cd9b96a4ac14b95e3e05354b0680ad17d05d16c2a84571bb8f,
      fq 0x16b5d0838ddc04902a3495e13b92c20009956f0fa566d06c8a0418223e006f13,
      fq 0x15082152d2814013f6f4a0701da5b9057ae2f1ec078436e61c5f7ca6cff118da,
      fq 0x2c17e2bf1af9e8d181adf26c7e43761af3580238800fbf5739fa64c0ea45f87b,
      fq 0x300b03eb4ea01b5508baef1ed4e95955c479f1cd7ad77f2058d944f22710152f,
      fq 0x0c79cff2c214e21c33623aca7fbb68e744060f2c8ef5f10b5edb6c445c718e36,
      fq 0x0651be8a65ead1f568a193902a804d2db9eee07d52fca9287c1edd116eab7898,
      fq 0x2649969676428eba6e259836c9d5427ca441ef5eabc5adbb2101f16ddcfde762,
      fq 0x16ca597205c402724d1fe5b2bd0a607f1b42e939221e5091a2b974ccf277f9a9,
      fq 0x214166ba060c0e585c3b014b53531340b3b785ca779d7ade8f1a094165bb58c0,
      fq 0x1e3637495db490b511aa10f23babd95d1b6a0c5d8029faad4d5f5ed3d0f19f8d,
      fq 0x2c2f671855c506d489f96ad546c1f4425a7fdd74c97c8b9c1d305c931d9c6e62]⟩

theorem packed_double :
    let single := packedLines .generator 1 2
    let double := packedLines .generator generatorDoubleX generatorDoubleY
    (double.2 = single.2 ∧ packFq12 lineRatio * (single.1 * single.1) = double.1 * single.2) ∧
      packFq12 lineInverse * (single.2 * single.1) = 1 ∧ packedPower (packFq12 lineRatio) ≠ 1 :=
  ⟨by decide +kernel, by decide +kernel, by decide +kernel⟩

theorem pairing_double_ne :
    pairing .generator (.affine generatorDoubleX generatorDoubleY) ≠
      pairing .generator (.affine 1 2) ^ 2 := by
  have hfinite : ¬(G2Point.generator.x = 0 ∧ G2Point.generator.y = 0) := by decide +kernel
  obtain ⟨f, hf, num, den, hlines, hunit⟩ := pairing_affine hfinite 1 2
  obtain ⟨f', hf', num', den', hlines', hunit'⟩ :=
    pairing_affine hfinite generatorDoubleX generatorDoubleY
  obtain ⟨⟨hden, hratio⟩, hinverse, hne⟩ := packed_double
  rw [hlines, hlines'] at hden hratio
  rw [hlines] at hinverse
  simp only [← packFq12_faithful.mul, ← packedPower_eq, ← packFq12_faithful.one,
    packFq12_faithful.injective.eq_iff] at hden hinverse hratio hne
  obtain rfl := hden
  have hproduct : target lineInverse * (target den' * target num) = 1 := by
    rw [← target_mul, ← target_mul, hinverse, target_one]
  have hunits : IsUnit (target den') ∧ IsUnit (target num) :=
    IsUnit.mul_iff.mp (IsUnit.of_mul_eq_one _ ((mul_comm _ _).trans hproduct))
  have hlineRatio : target lineRatio * (target num * target num) =
      target f' * target den' * target den' := by
    rw [← target_mul, ← target_mul, hratio, target_mul, hunit' hunits.1]
  intro hsquare
  apply hne
  rw [packFq12_faithful.injective.eq_iff]
  apply target_injective
  rw [hf, hf'] at hsquare
  have hpowers := congrArg target hsquare
  rw [target_pow, target_powBeBytes, target_powBeBytes] at hpowers
  rw [target_powBeBytes, target_one]
  apply ((hunits.2.mul hunits.2).pow (ofBigEndian FINAL_EXPONENT_BYTES)).mul_right_cancel
  calc target lineRatio ^ ofBigEndian FINAL_EXPONENT_BYTES *
        (target num * target num) ^ ofBigEndian FINAL_EXPONENT_BYTES
      = target f' ^ ofBigEndian FINAL_EXPONENT_BYTES *
          (target den' * target den') ^ ofBigEndian FINAL_EXPONENT_BYTES := by
        rw [← mul_pow, hlineRatio, mul_assoc, mul_pow]
    _ = (target f * target den' * (target f * target den')) ^
          ofBigEndian FINAL_EXPONENT_BYTES := by
        rw [hpowers, ← pow_mul, mul_comm (ofBigEndian FINAL_EXPONENT_BYTES) 2, pow_mul,
          ← mul_pow, sq, mul_mul_mul_comm]
    _ = 1 * (target num * target num) ^ ofBigEndian FINAL_EXPONENT_BYTES := by
        rw [hunit hunits.1, one_mul]

theorem pairing_infinity {q : G2Point} {p : Triple BaseField} (hz : p.z = 0) :
    pairing q p = 1 := if_pos (.inl hz)

theorem pairing_zero_right {Q : twistCurve.Point} (hQ : Q = 0) (p : Triple BaseField) :
    pairing (.ofPoint Q) p = 1 := if_pos (.inr (ofPoint_eq_zero.mpr hQ))

theorem pairing_of_represents (q : G2Point) {p : Triple BaseField} {x y : BaseField}
    {h : curve.Nonsingular x y} (hp : Represents 3 p (.some x y h)) :
    pairing q p = pairing q (.affine x y) := by
  cases hp with
  | finite _ hz hx hy =>
    have haffine : toAffine p = (x, y) := by
      rw [toAffine, if_neg hz]
      simp only [hx, hy]
      refine Prod.ext ?_ ?_
      · field_simp
      · field_simp
    have hone : (Triple.affine x y).z ≠ 0 := one_ne_zero
    simp only [pairing, hz, hone, false_or, embedG1Jacobian, haffine, toAffine_affine]

/-- Multiples of the points are powers of the pairing, for all scalars and all coordinates. -/
def Bilinear (P : G1Point) (Q : twistCurve.Point) : Prop :=
  ∀ (a b : ℕ) (p p' : Triple BaseField), Represents 3 p P → Represents 3 p' (a • P) →
    pairing (.ofPoint (b • Q)) p' = pairing (.ofPoint Q) p ^ (a * b)

theorem exists_represents (P : G1Point) : ∃ p, Represents 3 p P := by
  cases P with
  | zero => exact ⟨.infinity, .infinity rfl⟩
  | some x y h => exact ⟨.affine x y, represents_affine h⟩

theorem not_bilinear_of_multiples {P : G1Point} {Q : twistCurve.Point} {a b : ℕ}
    (ha : a • P = Bn254.generator) (hb : b • Q = TwistCurve.generator) : ¬Bilinear P Q := by
  intro h
  obtain ⟨p, hp⟩ := exists_represents P
  have hsingle := h a b p (.affine 1 2) hp (ha ▸ represents_affine _)
  have hdouble := h (2 * a) b p (.affine generatorDoubleX generatorDoubleY) hp (by
    rw [mul_nsmul', ha, two_nsmul_generator]
    exact represents_affine _)
  rw [hb, ofPoint_generator] at hsingle hdouble
  apply pairing_double_ne
  rw [hdouble, hsingle, ← pow_mul]
  ring_nf

theorem generators_not_bilinear : TwistCurve.generator ∈ G2Group ∧
    ¬Bilinear Bn254.generator TwistCurve.generator :=
  ⟨TwistCurve.curveOrder_smul_generator,
    not_bilinear_of_multiples (one_nsmul _) (one_nsmul _)⟩

/-- Only the points at infinity are paired bilinearly. -/
theorem bilinear_iff (P : G1Point) (Q : G2Group) :
    Bilinear P Q ↔ P = 0 ∨ (Q : twistCurve.Point) = 0 := by
  constructor
  · intro h
    by_contra hne
    rw [not_or] at hne
    have hQ : Q ≠ 0 := fun hzero => hne.2 (congrArg Subtype.val hzero)
    obtain ⟨a, ha⟩ : Bn254.generator ∈ AddSubmonoid.multiples P :=
      mem_multiples_of_prime_card card_G1Point hne.1
    obtain ⟨b, hb⟩ : (⟨TwistCurve.generator, TwistCurve.curveOrder_smul_generator⟩ : G2Group) ∈
        AddSubmonoid.multiples Q := mem_multiples_of_prime_card card_G2Group hQ
    exact not_bilinear_of_multiples ha (congrArg Subtype.val hb) h
  · rintro (rfl | hQ) a b p p' hp hp'
    · rw [nsmul_zero] at hp'
      rw [pairing_infinity ((represents_zero hp).mpr rfl),
        pairing_infinity ((represents_zero hp').mpr rfl), one_pow]
    · have hb : b • (Q : twistCurve.Point) = 0 := by rw [hQ, nsmul_zero]
      rw [pairing_zero_right hQ, pairing_zero_right hb, one_pow]

end Pairing
