import LedgerLens.Proofs.WordArithmetic
import LedgerLens.Proofs.ZkVerifierCurve

/-!
# Point arithmetic of the verifier contract

The reduced words of `Fq` compute in the base field, so the formulas of `Point` are those of
the Jacobian triples over it and refine the group law of `y² = x³ + 3`.
-/
namespace ZkVerifierCurve

open ZkVerifierWords JacobianCoordinates Bn254

namespace Fq

def toField (a : Fq) : BaseField := (a.val.toNat : BaseField)

/-- A reduced word and the field element it stands for. -/
structure Encodes (a : Fq) (x : BaseField) : Prop where
  valid : a.isValid = true
  toField_eq : a.toField = x

theorem isValid_iff {a : Fq} : a.isValid = true ↔ a.val.toNat < FIELD_MODULUS.toNat :=
  U256.ltb_iff _ _

theorem toField_encodes {a : Fq} (h : a.isValid = true) : a.Encodes a.toField := ⟨h, rfl⟩

theorem encodes_of_lt {a : U256} (h : a.toNat < FIELD_MODULUS.toNat) :
    Encodes ⟨a⟩ (a.toNat : BaseField) :=
  ⟨(U256.ltb_iff a FIELD_MODULUS).mpr h, rfl⟩

theorem encodes_of_mod {a : U256} {n : ℕ} (h : a.toNat = n % FIELD_MODULUS.toNat) :
    Encodes ⟨a⟩ (n : BaseField) := by
  have hlt : a.toNat < FIELD_MODULUS.toNat := by
    rw [h]
    exact Nat.mod_lt _ fieldModulus_bounds.1
  have hcast : (a.toNat : BaseField) = n := by
    rw [h, FIELD_MODULUS_toNat, ZMod.natCast_mod]
  exact hcast ▸ encodes_of_lt hlt

section

variable {a b : Fq} {x y : BaseField}

theorem Encodes.lt (h : a.Encodes x) : a.val.toNat < FIELD_MODULUS.toNat := isValid_iff.mp h.valid

theorem Encodes.of_eq (h : a.Encodes x) (hxy : x = y) : a.Encodes y := hxy ▸ h

theorem Encodes.eq_iff (ha : a.Encodes x) (hb : b.Encodes y) : a = b ↔ x = y := by
  have hlt := ha.lt
  have hlt' := hb.lt
  rw [FIELD_MODULUS_toNat] at hlt hlt'
  rw [← ha.toField_eq, ← hb.toField_eq, toField, toField, ZMod.natCast_eq_natCast_iff',
    Nat.mod_eq_of_lt hlt, Nat.mod_eq_of_lt hlt']
  constructor
  · rintro rfl
    rfl
  · intro h
    cases a
    cases b
    exact congrArg Fq.mk (U256.toNat_inj h)

theorem zero_encodes : zero.Encodes 0 :=
  (encodes_of_mod (a := .ZERO) (n := 0) (by decide)).of_eq Nat.cast_zero

theorem one_encodes : one.Encodes 1 :=
  (encodes_of_mod (a := .ONE) (n := 1) (by decide)).of_eq Nat.cast_one

theorem Encodes.isZero_iff (h : a.Encodes x) : a.isZero = true ↔ x = 0 := by
  rw [← h.eq_iff zero_encodes, isZero, U256.isZero, beq_iff_eq]
  cases a
  exact (Fq.mk.injEq _ _).to_iff.symm

theorem Encodes.add (ha : a.Encodes x) (hb : b.Encodes y) : (a.add b).Encodes (x + y) := by
  refine (encodes_of_mod (addMod_spec ha.lt hb.lt)).of_eq ?_
  rw [Nat.cast_add, ← ha.toField_eq, ← hb.toField_eq, toField, toField]

theorem Encodes.sub (ha : a.Encodes x) (hb : b.Encodes y) : (a.sub b).Encodes (x - y) := by
  refine (encodes_of_mod (subMod_spec ha.lt hb.lt)).of_eq ?_
  rw [Nat.cast_add, Nat.cast_sub hb.lt.le, FIELD_MODULUS_toNat, ZMod.natCast_self, ← ha.toField_eq,
    ← hb.toField_eq, toField, toField]
  ring

theorem Encodes.mul (ha : a.Encodes x) (hb : b.Encodes y) : (a.mul b).Encodes (x * y) := by
  refine (encodes_of_mod (mulMod_spec _ _ fieldModulus_bounds.1 fieldModulus_bounds.2)).of_eq ?_
  rw [Nat.cast_mul, ← ha.toField_eq, ← hb.toField_eq, toField, toField]

theorem Encodes.square (ha : a.Encodes x) : a.square.Encodes (x * x) := ha.mul ha

theorem Encodes.neg (ha : a.Encodes x) : a.neg.Encodes (-x) := by
  rw [Fq.neg]
  by_cases hz : a.isZero = true
  · rw [if_pos hz, ha.isZero_iff.mp hz, neg_zero]
    exact zero_encodes
  · have hne : a.val.toNat ≠ 0 := by
      intro h0
      apply hz
      rw [ha.isZero_iff, ← ha.toField_eq, toField, h0, Nat.cast_zero]
    have hsub := subMod_of_le FIELD_MODULUS ha.lt.le
    have hlt : FIELD_MODULUS.toNat - a.val.toNat < FIELD_MODULUS.toNat := by
      have := ha.lt
      omega
    rw [if_neg hz]
    refine (encodes_of_mod (hsub.trans (Nat.mod_eq_of_lt hlt).symm)).of_eq ?_
    rw [Nat.cast_sub ha.lt.le, FIELD_MODULUS_toNat, ZMod.natCast_self, zero_sub, ← ha.toField_eq,
      toField]

theorem Encodes.invert (ha : a.Encodes x) (hx : x ≠ 0) : a.invert.Encodes x⁻¹ := by
  have hprime : FIELD_MODULUS.toNat.Prime := FIELD_MODULUS_toNat ▸ fieldModulus_prime
  have hdvd : ¬ FIELD_MODULUS.toNat ∣ a.val.toNat := by
    intro h
    apply hx
    rw [← ha.toField_eq, toField, ZMod.natCast_eq_zero_iff, ← FIELD_MODULUS_toNat]
    exact h
  obtain ⟨hlt, hmul⟩ := invMod_spec fieldModulus_bounds.2 hprime hdvd
  have hcast := congrArg (Nat.cast : ℕ → BaseField) hmul
  rw [FIELD_MODULUS_toNat, ZMod.natCast_mod, Nat.cast_mul, Nat.cast_one] at hcast
  have hone : x * ((invMod a.val FIELD_MODULUS).toNat : BaseField) = 1 := by
    rw [← ha.toField_eq, toField, hcast]
  rw [Fq.invert, ← eq_inv_of_mul_eq_one_right hone]
  exact encodes_of_lt hlt

end

end Fq

namespace Point

def toTriple (p : Point) : Triple BaseField := ⟨p.x.toField, p.y.toField, p.z.toField⟩

structure Encodes (p : Point) (t : Triple BaseField) : Prop where
  x : p.x.Encodes t.x
  y : p.y.Encodes t.y
  z : p.z.Encodes t.z

theorem toTriple_encodes {p : Point} (h : p.isValid = true) : p.Encodes p.toTriple := by
  simp only [isValid, Bool.and_eq_true] at h
  exact ⟨Fq.toField_encodes h.1.1, Fq.toField_encodes h.1.2, Fq.toField_encodes h.2⟩

theorem infinity_encodes : infinity.Encodes .infinity :=
  ⟨Fq.one_encodes, Fq.one_encodes, Fq.zero_encodes⟩

variable {p q : Point} {s t : Triple BaseField}

theorem Encodes.isInfinity_iff (h : p.Encodes t) : p.isInfinity = true ↔ t.z = 0 :=
  h.z.isZero_iff

theorem Encodes.double (h : p.Encodes t) : p.double.Encodes t.double := by
  have hcond : (p.isInfinity || p.y.isZero) = true ↔ t.z = 0 ∨ t.y = 0 := by
    rw [Bool.or_eq_true, h.isInfinity_iff, h.y.isZero_iff]
  rw [Point.double, Triple.double]
  by_cases hc : t.z = 0 ∨ t.y = 0
  · rw [if_pos (hcond.mpr hc), if_pos hc]
    exact infinity_encodes
  · rw [if_neg (fun hb => hc (hcond.mp hb)), if_neg hc]
    have ha := h.x.square
    have hb := h.y.square
    have hcc := hb.square
    have hd := ((h.x.add hb).square.sub ha).sub hcc
    have hd2 := hd.add hd
    have he := (ha.add ha).add ha
    have hx3 := (he.square.sub hd2).sub hd2
    have h4c := ((hcc.add hcc).add hcc).add hcc
    have hy3 := (he.mul (hd2.sub hx3)).sub (h4c.add h4c)
    have hz3 := (h.y.mul h.z).add (h.y.mul h.z)
    refine ⟨hx3.of_eq ?_, hy3.of_eq ?_, hz3.of_eq ?_⟩
    all_goals ring

theorem Encodes.add (hp : p.Encodes s) (hq : q.Encodes t) : (p.add q).Encodes (s.add t) := by
  rw [Point.add, Triple.add]
  by_cases hzp : s.z = 0
  · rw [if_pos (hp.isInfinity_iff.mpr hzp), if_pos hzp]
    exact hq
  rw [if_neg (fun h => hzp (hp.isInfinity_iff.mp h)), if_neg hzp]
  by_cases hzq : t.z = 0
  · rw [if_pos (hq.isInfinity_iff.mpr hzq), if_pos hzq]
    exact hp
  rw [if_neg (fun h => hzq (hq.isInfinity_iff.mp h)), if_neg hzq]
  have hz1 := hp.z.square
  have hz2 := hq.z.square
  have hu1 := hp.x.mul hz2
  have hs1 := (hp.y.mul hq.z).mul hz2
  have hh := (hq.x.mul hz1).sub hu1
  have hr := ((hq.y.mul hp.z).mul hz1).sub hs1
  by_cases hh0 : t.x * (s.z * s.z) - s.x * (t.z * t.z) = 0
  · simp only [hh.isZero_iff.mpr hh0, hh0, if_true]
    by_cases hr0 : t.y * s.z * (s.z * s.z) - s.y * t.z * (t.z * t.z) = 0
    · simp only [hr.isZero_iff.mpr hr0, hr0, if_true]
      exact hp.double
    · simp only [show ¬ _ = true from fun h => hr0 (hr.isZero_iff.mp h), hr0, if_false]
      exact infinity_encodes
  · have hi := (hh.add hh).square
    have hj := hh.mul hi
    have hr2 := hr.add hr
    have hv := hu1.mul hi
    have hx3 := ((hr2.square.sub hj).sub hv).sub hv
    have hy3 := (hr2.mul (hv.sub hx3)).sub ((hs1.mul hj).add (hs1.mul hj))
    have hz3 := (((hp.z.add hq.z).square.sub hz1).sub hz2).mul hh
    simp only [show ¬ _ = true from fun h => hh0 (hh.isZero_iff.mp h), hh0, if_false]
    refine ⟨hx3.of_eq ?_, hy3.of_eq ?_, hz3.of_eq ?_⟩
    all_goals ring

theorem Encodes.neg (h : p.Encodes t) :
    p.neg.Encodes (if t.z = 0 then t else t.neg) := by
  rw [Point.neg]
  by_cases hz : t.z = 0
  · rw [if_pos (h.isInfinity_iff.mpr hz), if_pos hz]
    exact h
  · rw [if_neg (fun hb => hz (h.isInfinity_iff.mp hb)), if_neg hz]
    exact ⟨h.x, h.y.neg, h.z⟩

theorem foldl_mulScalar_encodes (h : p.Encodes t) (k : Fr) (indices : List ℕ) :
    ∀ {acc : Point} {s : Triple BaseField}, acc.Encodes s →
      (indices.foldl (fun acc i => if k.val.bit i then acc.double.add p else acc.double)
        acc).Encodes ((indices.map k.val.toNat.testBit).foldl
          (fun acc bit => if bit then acc.double.add t else acc.double) s) := by
  induction indices with
  | nil => exact fun hacc => hacc
  | cons i indices ih =>
    intro acc s hacc
    rw [List.foldl_cons, List.map_cons, List.foldl_cons]
    apply ih
    rw [U256.bit_eq]
    cases k.val.toNat.testBit i with
    | true => exact hacc.double.add h
    | false => exact hacc.double

theorem Encodes.mulScalar (h : p.Encodes t) (k : Fr) : (p.mulScalar k).Encodes
    (t.mulBits ((List.range k.val.bitLength).reverse.map k.val.toNat.testBit)) :=
  foldl_mulScalar_encodes h k _ infinity_encodes

/-- The points a contract value can stand for: reduced coordinates of one of the triples of
`P`, at any scale. -/
structure Represents (p : Point) (P : G1Point) : Prop where
  valid : p.isValid = true
  triple : JacobianCoordinates.Represents 3 p.toTriple P

variable {P Q : G1Point}

theorem Represents.encodes (h : p.Represents P) : p.Encodes p.toTriple := toTriple_encodes h.valid

theorem Encodes.represents (h : p.Encodes t) (ht : JacobianCoordinates.Represents 3 t P) :
    p.Represents P := by
  have htriple : p.toTriple = t := Triple.ext h.x.toField_eq h.y.toField_eq h.z.toField_eq
  refine ⟨?_, htriple ▸ ht⟩
  rw [isValid, h.x.valid, h.y.valid, h.z.valid]
  rfl

/-- Reduced coordinates on the curve, scaled or at infinity, are those with a point. -/
theorem exists_represents_iff (h : p.isValid = true) : (∃ P, p.Represents P) ↔
    p.toTriple.z = 0 ∨ p.toTriple.y ^ 2 = p.toTriple.x ^ 3 + 3 * p.toTriple.z ^ 6 := by
  constructor
  · rintro ⟨P, -, hP⟩
    cases hP with
    | infinity hz => exact .inl hz
    | finite hns hz hx hy =>
      right
      rw [hx, hy]
      linear_combination p.toTriple.z ^ 6 * CurveOrder.equation_of_nonsingular hns
  · intro hcurve
    by_cases hz : p.toTriple.z = 0
    · exact ⟨0, h, .infinity hz⟩
    · have heq := hcurve.resolve_left hz
      have haffine : (p.toTriple.y / p.toTriple.z ^ 3) ^ 2 =
          (p.toTriple.x / p.toTriple.z ^ 2) ^ 3 + 3 := by
        field_simp
        linear_combination heq
      exact ⟨mkPoint _ _ haffine, h, .finite _ hz (by field_simp) (by field_simp)⟩

theorem Represents.isInfinity_iff (h : p.Represents P) : p.isInfinity = true ↔ P = 0 := by
  rw [h.encodes.isInfinity_iff, represents_zero h.triple]

theorem Represents.double (h : p.Represents P) : p.double.Represents (P + P) :=
  h.encodes.double.represents (double_represents two_ne_zero_base h.triple)

theorem Represents.add (hp : p.Represents P) (hq : q.Represents Q) :
    (p.add q).Represents (P + Q) :=
  (hp.encodes.add hq.encodes).represents (add_represents two_ne_zero_base hp.triple hq.triple)

theorem Represents.neg (h : p.Represents P) : p.neg.Represents (-P) := by
  refine h.encodes.neg.represents ?_
  by_cases hz : p.toTriple.z = 0
  · rw [if_pos hz, (represents_zero h.triple).mp hz, neg_zero]
    exact .infinity hz
  · rw [if_neg hz]
    exact neg_represents h.triple

theorem Represents.mulScalar (h : p.Represents P) (k : Fr) :
    (p.mulScalar k).Represents (k.val.toNat • P) := by
  have hbits := mulBits_represents two_ne_zero_base h.triple
    ((List.range k.val.bitLength).reverse.map k.val.toNat.testBit)
  rw [bitsValue_testBit, Nat.mod_eq_of_lt (U256.toNat_lt_bitLength k.val)] at hbits
  exact (h.encodes.mulScalar k).represents hbits

/-- Affine coordinates as the contract writes them, `(0, 0)` for the point at infinity. -/
def affineCoordinates (P : G1Point) : BaseField × BaseField :=
  (CurveOrder.coordinates P).getD (0, 0)

theorem Represents.toAffine (h : p.Represents P) :
    p.toAffine.1.Encodes (affineCoordinates P).1 ∧
      p.toAffine.2.Encodes (affineCoordinates P).2 := by
  have henc := h.encodes
  obtain ⟨-, hP⟩ := h
  generalize p.toTriple = t at *
  rw [Point.toAffine]
  cases hP with
  | infinity hz =>
    rw [if_pos (henc.isInfinity_iff.mpr hz)]
    exact ⟨Fq.zero_encodes, Fq.zero_encodes⟩
  | @finite x y hns hz hx hy =>
    rw [if_neg (fun hb => hz (henc.isInfinity_iff.mp hb))]
    have hinv := henc.z.invert hz
    refine ⟨(henc.x.mul hinv.square).of_eq ?_, (henc.y.mul (hinv.square.mul hinv)).of_eq ?_⟩
    · change _ = x
      rw [hx]
      field_simp
    · change _ = y
      rw [hy]
      field_simp

theorem toAffine_one {x y : Fq} (hx : x.isValid = true) (hy : y.isValid = true) :
    Point.toAffine ⟨x, y, .one⟩ = (x, y) := by
  have hinf : ¬ Fq.one.isZero = true := by decide
  have hinv := Fq.one_encodes.invert one_ne_zero
  have hX := (Fq.toField_encodes hx).mul hinv.square
  have hY := (Fq.toField_encodes hy).mul (hinv.square.mul hinv)
  rw [Point.toAffine, Point.isInfinity, if_neg hinf, Prod.mk.injEq]
  constructor
  · rw [hX.eq_iff (Fq.toField_encodes hx)]
    field_simp
  · rw [hY.eq_iff (Fq.toField_encodes hy)]
    field_simp

/-- Cross multiplication compares the points, at any two scales. -/
theorem Represents.eq_iff (hp : p.Represents P) (hq : q.Represents Q) :
    p.eq q = true ↔ P = Q := by
  have hinf := hp.isInfinity_iff
  have hinf' := hq.isInfinity_iff
  rw [Point.eq]
  by_cases hP : P = 0
  · by_cases hQ : Q = 0
    · rw [hinf.mpr hP, hinf'.mpr hQ, hP, hQ]
      simp
    · have hne : q.isInfinity = false := by rwa [← Bool.not_eq_true, hinf']
      rw [hinf.mpr hP, hne, hP]
      simpa using fun h => hQ h.symm
  · have hne : p.isInfinity = false := by rwa [← Bool.not_eq_true, hinf]
    by_cases hQ : Q = 0
    · rw [hne, hinf'.mpr hQ, hQ]
      simpa using hP
    · have hne' : q.isInfinity = false := by rwa [← Bool.not_eq_true, hinf']
      have henc := hp.encodes
      have henc' := hq.encodes
      have hx := (henc.x.mul henc'.z.square).eq_iff (henc'.x.mul henc.z.square)
      have hy := (henc.y.mul (henc'.z.square.mul henc'.z)).eq_iff
        (henc'.y.mul (henc.z.square.mul henc.z))
      have hcross : p.eq q = true ↔
          p.x.mul q.z.square = q.x.mul p.z.square ∧
            p.y.mul (q.z.square.mul q.z) = q.y.mul (p.z.square.mul p.z) := by
        rw [Point.eq, hne, hne']
        simp
      rw [Point.eq] at hcross
      rw [hcross, hx, hy]
      obtain ⟨-, hrep⟩ := hp
      obtain ⟨-, hrep'⟩ := hq
      generalize p.toTriple = s at *
      generalize q.toTriple = t at *
      cases hrep with
      | infinity => exact absurd rfl hP
      | @finite x y hns hz hX hY =>
        cases hrep' with
        | infinity => exact absurd rfl hQ
        | @finite x' y' hns' hz' hX' hY' =>
          have hscale : s.z * t.z ≠ 0 := mul_ne_zero hz hz'
          have hcx : s.x * (t.z * t.z) = t.x * (s.z * s.z) ↔ x = x' := by
            rw [hX, hX', show x * s.z ^ 2 * (t.z * t.z) = x * (s.z * t.z) ^ 2 by ring,
              show x' * t.z ^ 2 * (s.z * s.z) = x' * (s.z * t.z) ^ 2 by ring,
              mul_left_inj' (pow_ne_zero 2 hscale)]
          have hcy : s.y * (t.z * t.z * t.z) = t.y * (s.z * s.z * s.z) ↔ y = y' := by
            rw [hY, hY', show y * s.z ^ 3 * (t.z * t.z * t.z) = y * (s.z * t.z) ^ 3 by ring,
              show y' * t.z ^ 3 * (s.z * s.z * s.z) = y' * (s.z * t.z) ^ 3 by ring,
              mul_left_inj' (pow_ne_zero 3 hscale)]
          rw [hcx, hcy, WeierstrassCurve.Affine.Point.some.injEq]

/-- The operations of the contract, on values that stand for `P` and `Q`, are those of the
group of affine points. -/
structure FollowsGroupLaw (p q : Point) (P Q : G1Point) (k : Fr) : Prop where
  double : p.double.Represents (P + P)
  add : (p.add q).Represents (P + Q)
  neg : p.neg.Represents (-P)
  eq : p.eq q = true ↔ P = Q
  toAffineX : p.toAffine.1.Encodes (affineCoordinates P).1
  toAffineY : p.toAffine.2.Encodes (affineCoordinates P).2
  mulScalar : (p.mulScalar k).Represents (k.val.toNat • P)

theorem followsGroupLaw (hp : p.Represents P) (hq : q.Represents Q) (k : Fr) :
    FollowsGroupLaw p q P Q k where
  double := hp.double
  add := hp.add hq
  neg := hp.neg
  eq := hp.eq_iff hq
  toAffineX := hp.toAffine.1
  toAffineY := hp.toAffine.2
  mulScalar := hp.mulScalar k

theorem generator_represents : Point.generator.Represents Bn254.generator :=
  Encodes.represents (t := .affine 1 2)
    ⟨Fq.one_encodes, (Fq.encodes_of_mod (a := .fromU64 2) (n := 2) (by decide)).of_eq rfl,
      Fq.one_encodes⟩
    (represents_affine _)

theorem generator_followsGroupLaw : FollowsGroupLaw .generator .infinity Bn254.generator 0
    (.fromU64 5) :=
  followsGroupLaw generator_represents (infinity_encodes.represents (.infinity rfl)) _

end Point

end ZkVerifierCurve
