import LedgerLens.JacobianCoordinates

/-!
# The Miller loop

`linefunc_jacobian`, `jacobian_double`, `jacobian_add` and the loop of `pairing_inner` in
`contracts/zk_verifier/src/pairing.rs`, over any arithmetic and any accumulator of lines.
-/
namespace MillerLoop

open JacobianCoordinates

variable {T : Type*} [Zero T] [One T] [Add T] [Sub T] [Mul T] [DecidableEq T]

def two (a : T) : T := a + a

def jacobianDouble (p : Triple T) : Triple T :=
  if p.z = 0 ∨ p.y = 0 then ⟨1, 1, 0⟩
  else
    let a := p.x * p.x
    let b := p.y * p.y
    let c := b * b
    let xb := p.x + b
    let d := two (xb * xb - a - c)
    let e := a + a + a
    let f := e * e
    let x3 := f - d - d
    let eightC := c + c + c + c + c + c + c + c
    ⟨x3, e * (d - x3) - eightC, two (p.y * p.z)⟩

def jacobianAdd (p1 p2 : Triple T) : Triple T :=
  if p1.z = 0 then p2
  else if p2.z = 0 then p1
  else
    let z1z1 := p1.z * p1.z
    let z2z2 := p2.z * p2.z
    let u1 := p1.x * z2z2
    let u2 := p2.x * z1z1
    let s1 := p1.y * p2.z * z2z2
    let s2 := p2.y * p1.z * z1z1
    let h := u2 - u1
    let r := s2 - s1
    if h = 0 then (if r = 0 then jacobianDouble p1 else ⟨1, 1, 0⟩)
    else
      let i := two (h * h)
      let j := h * i
      let v := u1 * i
      let x3 := r * r - j - v - v
      let sj := two (s1 * j)
      let z1z2 := (p1.z + p2.z) * (p1.z + p2.z) - z1z1 - z2z2
      ⟨x3, r * (v - x3) - sj, z1z2 * h⟩

/-- Numerator and denominator of the line through two points, at a third. -/
def linefuncJacobian (p1 p2 t : Triple T) : T × T :=
  let mNum := p2.y * p1.z - p1.y * p2.z
  let mDen := p2.x * p1.z - p1.x * p2.z
  if mDen ≠ 0 then
    (mNum * (t.x * p1.z - p1.x * t.z) - mDen * (t.y * p1.z - p1.y * t.z), mDen * t.z * p1.z)
  else if mNum = 0 then
    let mNumD := p1.x * p1.x + p1.x * p1.x + p1.x * p1.x
    let mDenD := two (p1.y * p1.z)
    (mNumD * (t.x * p1.z - p1.x * t.z) - mDenD * (t.y * p1.z - p1.y * t.z), mDenD * t.z * p1.z)
  else (t.x * p1.z - p1.x * t.z, p1.z * t.z)

def ATE_LOOP_COUNT : ℕ := 29793968203157093288

def LOG_ATE_LOOP_COUNT : ℕ := 63

/-- The accumulated lines and the running point. -/
structure Miller (A T : Type*) where
  f : A
  r : Triple T

variable {A : Type*}

/-- The line from the running point to another point, at `p`, goes into the accumulator. -/
def line (acc : A → T × T → A) (p : Triple T) (s : Miller A T) (q : Triple T) : A :=
  acc s.f (linefuncJacobian s.r q p)

def millerStep (acc : A → T × T → A) (q p : Triple T) (s : Miller A T) (i : ℕ) : Miller A T :=
  let s : Miller A T := ⟨line acc p s s.r, jacobianDouble s.r⟩
  if ATE_LOOP_COUNT.testBit i then ⟨line acc p s q, jacobianAdd s.r q⟩ else s

/-- The loop from the highest bit on, and the two lines of the epilogue. -/
def millerLoop (acc : A → T × T → A) (one : A) (q p q1 nq2 : Triple T) : A :=
  let s := (List.range (LOG_ATE_LOOP_COUNT + 1)).reverse.foldl (millerStep acc q p) ⟨one, q⟩
  let s : Miller A T := ⟨line acc p s q1, jacobianAdd s.r q1⟩
  line acc p s nq2

/-- An exact copy of one arithmetic inside another. -/
structure Faithful {T' : Type*} [Zero T'] [One T'] [Add T'] [Sub T'] [Mul T'] (φ : T → T') :
    Prop where
  injective : Function.Injective φ
  zero : φ 0 = 0
  one : φ 1 = 1
  add : ∀ a b, φ (a + b) = φ a + φ b
  sub : ∀ a b, φ (a - b) = φ a - φ b
  mul : ∀ a b, φ (a * b) = φ a * φ b

def mapTriple {T' : Type*} (φ : T → T') (p : Triple T) : Triple T' := ⟨φ p.x, φ p.y, φ p.z⟩

section Faithful

variable {T' A' : Type*} [Zero T'] [One T'] [Add T'] [Sub T'] [Mul T'] {φ : T → T'}

section Rules

omit [DecidableEq T]

theorem Faithful.eq_zero_iff (hφ : Faithful φ) (a : T) : φ a = 0 ↔ a = 0 := by
  rw [← hφ.zero, hφ.injective.eq_iff]

theorem Faithful.two (hφ : Faithful φ) (a : T) : φ (two a) = two (φ a) := hφ.add a a

end Rules

variable [DecidableEq T'] (hφ : Faithful φ)

include hφ

theorem jacobianDouble_map (p : Triple T) :
    jacobianDouble (mapTriple φ p) = mapTriple φ (jacobianDouble p) := by
  simp only [jacobianDouble, mapTriple, hφ.eq_zero_iff]
  split_ifs
  · rw [hφ.one, hφ.zero]
  · simp only [hφ.add, hφ.sub, hφ.mul, hφ.two]

theorem jacobianAdd_map (p q : Triple T) :
    jacobianAdd (mapTriple φ p) (mapTriple φ q) = mapTriple φ (jacobianAdd p q) := by
  simp only [jacobianAdd, ← jacobianDouble_map hφ, apply_ite (mapTriple φ)]
  simp only [mapTriple, ← hφ.add, ← hφ.sub, ← hφ.mul, ← hφ.two, ← hφ.one, ← hφ.zero,
    hφ.injective.eq_iff]

theorem linefuncJacobian_map (p q t : Triple T) :
    linefuncJacobian (mapTriple φ p) (mapTriple φ q) (mapTriple φ t) =
      (φ (linefuncJacobian p q t).1, φ (linefuncJacobian p q t).2) := by
  simp only [linefuncJacobian, mapTriple, ← hφ.add, ← hφ.sub, ← hφ.mul, ← hφ.two, ← hφ.zero,
    hφ.injective.eq_iff, ne_eq]
  split_ifs <;> rfl

/-- Related accumulators over the same running point. -/
structure Related (φ : T → T') (R : A → A' → Prop) (s : Miller A T) (s' : Miller A' T') :
    Prop where
  f : R s.f s'.f
  r : s'.r = mapTriple φ s.r

variable {acc : A → T × T → A} {acc' : A' → T' × T' → A'} {R : A → A' → Prop}
  (hstep : ∀ a a' n d, R a a' → R (acc a (n, d)) (acc' a' (φ n, φ d)))

include hstep

theorem Related.line {s : Miller A T} {s' : Miller A' T'} (h : Related φ R s s')
    (p v : Triple T) :
    R (line acc p s v) (MillerLoop.line acc' (mapTriple φ p) s' (mapTriple φ v)) := by
  rw [MillerLoop.line, MillerLoop.line, h.r, linefuncJacobian_map hφ]
  exact hstep _ _ _ _ h.f

theorem Related.add {s : Miller A T} {s' : Miller A' T'} (h : Related φ R s s')
    (p v : Triple T) : Related φ R ⟨MillerLoop.line acc p s v, jacobianAdd s.r v⟩
      ⟨MillerLoop.line acc' (mapTriple φ p) s' (mapTriple φ v),
        jacobianAdd s'.r (mapTriple φ v)⟩ :=
  ⟨h.line hφ hstep p v, by rw [h.r, jacobianAdd_map hφ]⟩

theorem Related.step {s : Miller A T} {s' : Miller A' T'} (h : Related φ R s s')
    (q p : Triple T) (i : ℕ) : Related φ R (millerStep acc q p s i)
      (millerStep acc' (mapTriple φ q) (mapTriple φ p) s' i) := by
  have hdouble : Related φ R ⟨MillerLoop.line acc p s s.r, jacobianDouble s.r⟩
      ⟨MillerLoop.line acc' (mapTriple φ p) s' s'.r, jacobianDouble s'.r⟩ := by
    refine ⟨?_, by rw [h.r, jacobianDouble_map hφ]⟩
    have hline := h.line hφ hstep p s.r
    rwa [← h.r] at hline
  rw [millerStep, millerStep]
  split_ifs
  · exact hdouble.add hφ hstep p q
  · exact hdouble

theorem millerLoop_rel {one : A} {one' : A'} (hone : R one one') (q p q1 nq2 : Triple T) :
    R (millerLoop acc one q p q1 nq2) (millerLoop acc' one' (mapTriple φ q) (mapTriple φ p)
      (mapTriple φ q1) (mapTriple φ nq2)) := by
  have hloop (l : List ℕ) (s : Miller A T) (s' : Miller A' T') (h : Related φ R s s') :
      Related φ R (l.foldl (millerStep acc q p) s)
        (l.foldl (millerStep acc' (mapTriple φ q) (mapTriple φ p)) s') := by
    induction l generalizing s s' with
    | nil => exact h
    | cons i l ih => exact ih _ _ (h.step hφ hstep q p i)
  exact ((hloop _ _ _ ⟨hone, rfl⟩).add hφ hstep p q1).line hφ hstep p nq2

end Faithful

end MillerLoop
