import Mathlib.AlgebraicGeometry.EllipticCurve.Affine.Point
import Mathlib.Tactic.FieldSimp
import Mathlib.Tactic.LinearCombination

/-!
# Jacobian coordinates on `y² = x³ + b`

A triple `(X, Y, Z)` stands for the affine point `(X/Z², Y/Z³)`. The doubling is
dbl-2009-l and the addition add-2007-bl, and both refine the group law of the curve.
No field operation divides, so long multiples can be computed inside the kernel.
-/
namespace JacobianCoordinates

-- The numerals of the formulas, each with one name for the proof it carries.
scoped instance two_atLeastTwo : Nat.AtLeastTwo 2 := inferInstance
scoped instance three_atLeastTwo : Nat.AtLeastTwo 3 := inferInstance

variable {F : Type*} [Field F]

abbrev shortCurve (b : F) : WeierstrassCurve.Affine F := ⟨0, 0, 0, 0, b⟩

@[ext]
structure Triple (F : Type*) where
  x : F
  y : F
  z : F
  deriving DecidableEq, Repr

namespace Triple

def infinity : Triple F := ⟨1, 1, 0⟩

def affine (x y : F) : Triple F := ⟨x, y, 1⟩

def neg (p : Triple F) : Triple F := ⟨p.x, -p.y, p.z⟩

variable [DecidableEq F]

def double (p : Triple F) : Triple F :=
  if p.z = 0 ∨ p.y = 0 then infinity
  else
    let a := p.x * p.x
    let b := p.y * p.y
    let c := b * b
    let d := 2 * ((p.x + b) * (p.x + b) - a - c)
    let e := 3 * a
    let x := e * e - 2 * d
    ⟨x, e * (d - x) - 8 * c, 2 * (p.y * p.z)⟩

def add (p q : Triple F) : Triple F :=
  if p.z = 0 then q
  else if q.z = 0 then p
  else
    let z1z1 := p.z * p.z
    let z2z2 := q.z * q.z
    let u1 := p.x * z2z2
    let s1 := p.y * q.z * z2z2
    let h := q.x * z1z1 - u1
    let r := q.y * p.z * z1z1 - s1
    if h = 0 then (if r = 0 then p.double else infinity)
    else
      let i := 2 * h * (2 * h)
      let j := h * i
      let v := u1 * i
      let x := 2 * r * (2 * r) - j - 2 * v
      ⟨x, 2 * r * (v - x) - 2 * (s1 * j), ((p.z + q.z) * (p.z + q.z) - z1z1 - z2z2) * h⟩

/-- Double and add over the bits of a scalar, most significant first. -/
def mulBits (p : Triple F) : List Bool → Triple F :=
  List.foldl (fun acc bit => if bit then acc.double.add p else acc.double) infinity

end Triple

def bitsValue : List Bool → ℕ := List.foldl (fun v bit => 2 * v + bit.toNat) 0

/-- The `n` lowest bits of a number, most significant first. -/
theorem bitsValue_testBit (k n : ℕ) :
    bitsValue ((List.range n).reverse.map k.testBit) = k % 2 ^ n := by
  have hfold (v : ℕ) : ((List.range n).reverse.map k.testBit).foldl
      (fun v bit => 2 * v + bit.toNat) v = v * 2 ^ n + k % 2 ^ n := by
    induction n generalizing v with
    | zero => simp [Nat.mod_one]
    | succ n ih =>
      have hbit : (k.testBit n).toNat = k / 2 ^ n % 2 := by
        rw [Nat.testBit_eq_decide_div_mod_eq]
        rcases Nat.mod_two_eq_zero_or_one (k / 2 ^ n) with h0 | h1
        · simp [h0]
        · simp [h1]
      rw [List.range_succ, List.reverse_append, List.reverse_singleton, List.singleton_append,
        List.map_cons, List.foldl_cons, ih, hbit, Nat.mod_pow_succ, pow_succ]
      ring
  rw [bitsValue, hfold, Nat.zero_mul, Nat.zero_add]

variable {b : F}

inductive Represents (b : F) : Triple F → (shortCurve b).Point → Prop where
  | infinity {p : Triple F} (hz : p.z = 0) : Represents b p 0
  | finite {p : Triple F} {x y : F} (h : (shortCurve b).Nonsingular x y) (hz : p.z ≠ 0)
      (hx : p.x = x * p.z ^ 2) (hy : p.y = y * p.z ^ 3) : Represents b p (.some x y h)

theorem represents_affine {x y : F} (h : (shortCurve b).Nonsingular x y) :
    Represents b (.affine x y) (.some x y h) :=
  .finite h one_ne_zero (by simp [Triple.affine]) (by simp [Triple.affine])

theorem represents_zero {p : Triple F} {P : (shortCurve b).Point} (h : Represents b p P) :
    p.z = 0 ↔ P = 0 := by
  cases h with
  | infinity hz => simp [hz]
  | finite h hz => simp [hz, WeierstrassCurve.Affine.Point.some_ne_zero]

theorem eq_some_of_represents {p : Triple F} {P : (shortCurve b).Point} (h : Represents b p P)
    {x y : F} (hns : (shortCurve b).Nonsingular x y) (hz : p.z ≠ 0) (hx : p.x = x * p.z ^ 2)
    (hy : p.y = y * p.z ^ 3) : P = .some x y hns := by
  cases h with
  | infinity hz' => exact absurd hz' hz
  | finite h' _ hx' hy' =>
    obtain rfl := mul_right_cancel₀ (pow_ne_zero 2 hz) (hx'.symm.trans hx)
    obtain rfl := mul_right_cancel₀ (pow_ne_zero 3 hz) (hy'.symm.trans hy)
    rfl

theorem neg_represents {p : Triple F} {P : (shortCurve b).Point} (h : Represents b p P) :
    Represents b p.neg (-P) := by
  cases h with
  | infinity hz => exact .infinity hz
  | finite h hz hx hy =>
    refine .finite _ hz hx ?_
    simp only [Triple.neg, WeierstrassCurve.Affine.negY, hy]
    ring

private theorem finite_of_eq {p : Triple F} {P : (shortCurve b).Point} {x y : F}
    {h : (shortCurve b).Nonsingular x y} (hP : P = .some x y h) (hz : p.z ≠ 0)
    (hx : p.x = x * p.z ^ 2) (hy : p.y = y * p.z ^ 3) : Represents b p P :=
  hP ▸ .finite h hz hx hy

private theorem scaled_sub_eq_zero {u v w : F} (hw : w ≠ 0) (n : ℕ) :
    (v - u) * w ^ n = 0 ↔ u = v := by
  rw [mul_eq_zero_iff_right (pow_ne_zero n hw), sub_eq_zero, eq_comm]

private theorem scaled_h {p q : Triple F} {x₁ x₂ : F} (hx₁ : p.x = x₁ * p.z ^ 2)
    (hx₂ : q.x = x₂ * q.z ^ 2) :
    q.x * (p.z * p.z) - p.x * (q.z * q.z) = (x₂ - x₁) * (p.z * q.z) ^ 2 := by
  rw [hx₁, hx₂]; ring

private theorem scaled_r {p q : Triple F} {y₁ y₂ : F} (hy₁ : p.y = y₁ * p.z ^ 3)
    (hy₂ : q.y = y₂ * q.z ^ 3) :
    q.y * p.z * (p.z * p.z) - p.y * q.z * (q.z * q.z) = (y₂ - y₁) * (p.z * q.z) ^ 3 := by
  rw [hy₁, hy₂]; ring

variable [DecidableEq F]

theorem double_represents (h2 : (2 : F) ≠ 0) {p : Triple F} {P : (shortCurve b).Point}
    (h : Represents b p P) : Represents b p.double (P + P) := by
  cases h with
  | infinity hz =>
    rw [add_zero]
    exact .infinity (by simp [Triple.double, hz, Triple.infinity])
  | @finite x y h hz hx hy =>
    by_cases hy0 : y = 0
    · have hp : p.y = 0 := by rw [hy, hy0, zero_mul]
      have hneg : y = (shortCurve b).negY x y := by simp [WeierstrassCurve.Affine.negY, hy0]
      rw [WeierstrassCurve.Affine.Point.add_self_of_Y_eq hneg]
      exact .infinity (by simp [Triple.double, hp, Triple.infinity])
    · have hp : p.y ≠ 0 := by rw [hy]; exact mul_ne_zero hy0 (pow_ne_zero 3 hz)
      have hne : y ≠ (shortCurve b).negY x y := by
        intro he
        have hyy : y = -y := by simpa [WeierstrassCurve.Affine.negY] using he
        have : 2 * y = 0 := by linear_combination hyy
        exact (mul_ne_zero h2 hy0) this
      have hslope : (shortCurve b).slope x x y y = 3 * x ^ 2 / (2 * y) := by
        rw [WeierstrassCurve.Affine.slope_of_Y_ne rfl hne]
        simp only [WeierstrassCurve.Affine.negY]
        congr 1 <;> ring
      have hd : p.double = ⟨_, _, _⟩ := if_neg (not_or.mpr ⟨hz, hp⟩)
      refine finite_of_eq (WeierstrassCurve.Affine.Point.add_self_of_Y_ne hne) ?_ ?_ ?_
      · rw [hd]
        exact mul_ne_zero h2 (mul_ne_zero hp hz)
      · rw [hd, hslope]
        simp only [WeierstrassCurve.Affine.addX, hx, hy]
        field_simp
        ring
      · rw [hd, hslope]
        simp only [WeierstrassCurve.Affine.addY, WeierstrassCurve.Affine.negAddY,
          WeierstrassCurve.Affine.negY, WeierstrassCurve.Affine.addX, hx, hy]
        field_simp
        ring

section Finite

variable {p q : Triple F} {x₁ y₁ x₂ y₂ : F}
  (h₁ : (shortCurve b).Nonsingular x₁ y₁) (hz₁ : p.z ≠ 0)
  (hx₁ : p.x = x₁ * p.z ^ 2) (hy₁ : p.y = y₁ * p.z ^ 3)
  (h₂ : (shortCurve b).Nonsingular x₂ y₂) (hz₂ : q.z ≠ 0)
  (hx₂ : q.x = x₂ * q.z ^ 2) (hy₂ : q.y = y₂ * q.z ^ 3)

include hz₁ hz₂ hx₁ hy₁ hx₂ hy₂ in
/-- Distinct abscissas: the chord through the two points. -/
private theorem chord_represents (h2 : (2 : F) ≠ 0) (hx : x₁ ≠ x₂) :
    Represents b (p.add q) (.some x₁ y₁ h₁ + .some x₂ y₂ h₂) := by
  have hh := scaled_h hx₁ hx₂
  have hr := scaled_r hy₁ hy₂
  have hzz : p.z * q.z ≠ 0 := mul_ne_zero hz₁ hz₂
  have hx12 : x₁ - x₂ ≠ 0 := sub_ne_zero.mpr hx
  have hx21 : x₂ - x₁ ≠ 0 := sub_ne_zero.mpr (Ne.symm hx)
  have hz : ((p.z + q.z) * (p.z + q.z) - p.z * p.z - q.z * q.z) *
      ((x₂ - x₁) * (p.z * q.z) ^ 2) = 2 * (x₂ - x₁) * (p.z * q.z) ^ 3 := by ring
  have hne : ¬ q.x * (p.z * p.z) - p.x * (q.z * q.z) = 0 := by
    rw [hh]; exact mt (scaled_sub_eq_zero hzz 2).mp hx
  have hadd : p.add q = ⟨_, _, _⟩ := (if_neg hz₁).trans ((if_neg hz₂).trans (if_neg hne))
  -- With the slope as a parameter both coordinate equations are polynomial.
  obtain ⟨l, hl⟩ : ∃ l, l = (y₁ - y₂) / (x₁ - x₂) := ⟨_, rfl⟩
  have hy : y₂ - y₁ = l * (x₂ - x₁) := by rw [hl]; field_simp; ring
  refine finite_of_eq (WeierstrassCurve.Affine.Point.add_of_X_ne hx) ?_ ?_ ?_
  · rw [hadd]
    simp only [hh, hz]
    exact mul_ne_zero (mul_ne_zero h2 hx21) (pow_ne_zero 3 hzz)
  · rw [hadd, WeierstrassCurve.Affine.slope_of_X_ne hx, ← hl]
    simp only [hh, hr, hz, hy]
    simp only [WeierstrassCurve.Affine.addX, hx₁]
    ring
  · rw [hadd, WeierstrassCurve.Affine.slope_of_X_ne hx, ← hl]
    simp only [hh, hr, hz, hy]
    simp only [WeierstrassCurve.Affine.addY, WeierstrassCurve.Affine.negAddY,
      WeierstrassCurve.Affine.negY, WeierstrassCurve.Affine.addX, hx₁, hy₁]
    ring

include hz₁ hz₂ hx₁ hy₁ hx₂ hy₂ in
/-- Equal abscissas: either the same point, which is doubled, or opposite points. -/
private theorem vertical_represents (h2 : (2 : F) ≠ 0) (hx : x₁ = x₂) :
    Represents b (p.add q) (.some x₁ y₁ h₁ + .some x₂ y₂ h₂) := by
  subst hx
  have hh := scaled_h hx₁ hx₂
  have hr := scaled_r hy₁ hy₂
  have hzz : p.z * q.z ≠ 0 := mul_ne_zero hz₁ hz₂
  have hadd : p.add q = if y₁ = y₂ then p.double else .infinity := by
    simp only [Triple.add, if_neg hz₁, if_neg hz₂, hh, hr, scaled_sub_eq_zero hzz, if_true]
  rw [hadd]
  by_cases hy : y₁ = y₂
  · subst hy
    rw [if_pos rfl]
    exact double_represents h2 (.finite h₁ hz₁ hx₁ hy₁)
  · have hneg : y₁ = (shortCurve b).negY x₁ y₂ :=
      (WeierstrassCurve.Affine.Y_eq_of_X_eq h₁.1 h₂.1 rfl).resolve_left hy
    rw [if_neg hy, WeierstrassCurve.Affine.Point.add_of_Y_eq rfl hneg]
    exact .infinity rfl

end Finite

theorem add_represents (h2 : (2 : F) ≠ 0) {p q : Triple F} {P Q : (shortCurve b).Point}
    (hp : Represents b p P) (hq : Represents b q Q) : Represents b (p.add q) (P + Q) := by
  cases hp with
  | infinity hz =>
    rw [zero_add, Triple.add, if_pos hz]
    exact hq
  | @finite x₁ y₁ h₁ hz₁ hx₁ hy₁ =>
    cases hq with
    | infinity hz =>
      rw [add_zero, Triple.add, if_neg hz₁, if_pos hz]
      exact .finite h₁ hz₁ hx₁ hy₁
    | @finite x₂ y₂ h₂ hz₂ hx₂ hy₂ =>
      by_cases hx : x₁ = x₂
      · exact vertical_represents h₁ hz₁ hx₁ hy₁ h₂ hz₂ hx₂ hy₂ h2 hx
      · exact chord_represents h₁ hz₁ hx₁ hy₁ h₂ hz₂ hx₂ hy₂ h2 hx

theorem foldl_mulBits_represents (h2 : (2 : F) ≠ 0) {p : Triple F} {P : (shortCurve b).Point}
    (hp : Represents b p P) (bits : List Bool) : ∀ (acc : Triple F) (k : ℕ),
    Represents b acc (k • P) →
    Represents b (bits.foldl (fun acc bit => if bit then acc.double.add p else acc.double) acc)
      (bits.foldl (fun v bit => 2 * v + bit.toNat) k • P) := by
  induction bits with
  | nil => intro acc k h; exact h
  | cons bit bits ih =>
    intro acc k h
    apply ih
    have hd := double_represents h2 h
    cases bit with
    | false => simpa [two_mul, add_nsmul] using hd
    | true => simpa [two_mul, add_nsmul] using add_represents h2 hd hp

theorem mulBits_represents (h2 : (2 : F) ≠ 0) {p : Triple F} {P : (shortCurve b).Point}
    (hp : Represents b p P) (bits : List Bool) :
    Represents b (p.mulBits bits) (bitsValue bits • P) :=
  foldl_mulBits_represents h2 hp bits .infinity 0
    (by rw [zero_nsmul]; exact .infinity rfl)

end JacobianCoordinates
