import LedgerLens.JacobianCoordinates
import Mathlib.FieldTheory.Finite.Basic
import Mathlib.GroupTheory.Perm.Cycle.Type

/-!
# The order of a short curve over a finite field

An abscissa belongs to at most two points, so a point of large order generates all of
the group or half of it, and half needs a point of order two.
-/
namespace CurveOrder

open JacobianCoordinates

variable {F : Type*} [Field F] [Fintype F] [DecidableEq F] {b : F}

/-- The affine solutions of `y² = x³ + b`. -/
def solutions (b : F) : Finset (F × F) := Finset.univ.filter fun p => p.2 ^ 2 = p.1 ^ 3 + b

theorem solutions_card_le (b : F) : (solutions b).card ≤ 2 * Fintype.card F := by
  have hfiber : ∀ x ∈ Finset.univ, ((solutions b).filter fun p => p.1 = x).card ≤ 2 := by
    intro x _
    by_cases hex : ∃ y, y ^ 2 = x ^ 3 + b
    · rcases hex with ⟨y, hy⟩
      have hsub : (solutions b).filter (fun p => p.1 = x) ⊆ {(x, y), (x, -y)} := by
        rintro ⟨u, v⟩ hp
        simp only [solutions, Finset.mem_filter, Finset.mem_univ, true_and] at hp
        rcases hp with ⟨hv, rfl⟩
        rcases sq_eq_sq_iff_eq_or_eq_neg.mp (hv.trans hy.symm) with rfl | rfl
        · simp
        · simp
      exact (Finset.card_le_card hsub).trans Finset.card_le_two
    · have hempty : (solutions b).filter (fun p => p.1 = x) = ∅ := by
        apply Finset.filter_eq_empty_iff.mpr
        rintro ⟨u, v⟩ hp rfl
        simp only [solutions, Finset.mem_filter, Finset.mem_univ, true_and] at hp
        exact hex ⟨v, hp⟩
      rw [hempty]
      exact Nat.zero_le 2
  exact Finset.card_le_mul_card_image_of_maps_to (fun _ _ => Finset.mem_univ _) 2 hfiber

def coordinates : (shortCurve b).Point → Option (F × F)
  | .zero => none
  | .some x y _ => some (x, y)

omit [Fintype F] [DecidableEq F] in
theorem coordinates_injective : Function.Injective (coordinates (b := b)) := by
  intro P Q h
  cases P with
  | zero =>
    cases Q with
    | zero => rfl
    | some x y _ => cases h
  | some x y _ =>
    cases Q with
    | zero => cases h
    | some u v _ =>
      cases h
      rfl

omit [Fintype F] [DecidableEq F] in
theorem equation_of_nonsingular {x y : F} (h : (shortCurve b).Nonsingular x y) :
    y ^ 2 = x ^ 3 + b := by
  have heq := h.1
  rw [WeierstrassCurve.Affine.equation_iff] at heq
  linear_combination heq

theorem card_point_le : Nat.card (shortCurve b).Point ≤ 2 * Fintype.card F + 1 := by
  have hmem (P : (shortCurve b).Point) :
      coordinates P ∈ insert none ((solutions b).map Function.Embedding.some) := by
    cases P with
    | zero => exact Finset.mem_insert_self _ _
    | some x y h =>
      apply Finset.mem_insert_of_mem
      apply Finset.mem_map_of_mem Function.Embedding.some
      simp [solutions, equation_of_nonsingular h]
  have hcard := Nat.card_le_card_of_injective
    (fun P : (shortCurve b).Point => (⟨coordinates P, hmem P⟩ :
      {o // o ∈ insert none ((solutions b).map Function.Embedding.some)}))
    fun P Q h => coordinates_injective (Subtype.ext_iff.mp h)
  rw [Nat.card_eq_finsetCard] at hcard
  have hinsert := Finset.card_insert_le none ((solutions b).map Function.Embedding.some)
  rw [Finset.card_map] at hinsert
  have hsolutions := solutions_card_le b
  omega

omit [Fintype F] in
theorem two_nsmul_ne_zero (h2 : (2 : F) ≠ 0) (hroot : ∀ x : F, x ^ 3 + b ≠ 0)
    {P : (shortCurve b).Point} (hP : P ≠ 0) : 2 • P ≠ 0 := by
  intro h
  rw [two_nsmul] at h
  have hneg := eq_neg_of_add_eq_zero_left h
  cases P with
  | zero => exact hP rfl
  | some x y hns =>
    rw [WeierstrassCurve.Affine.Point.neg_some] at hneg
    have hy := (WeierstrassCurve.Affine.Point.some.inj hneg).2
    simp only [WeierstrassCurve.Affine.negY, zero_mul, sub_zero] at hy
    have hzero : y = 0 := by
      have hdouble : 2 * y = 0 := by linear_combination hy
      exact (mul_eq_zero.mp hdouble).resolve_left h2
    apply hroot x
    rw [← equation_of_nonsingular hns, hzero, zero_pow two_ne_zero]

/-- A point whose order exceeds a third of the bound generates the whole group. -/
theorem card_eq_addOrderOf (h2 : (2 : F) ≠ 0) (hroot : ∀ x : F, x ^ 3 + b ≠ 0)
    {P : (shortCurve b).Point} (hbound : 2 * Fintype.card F + 1 < 3 * addOrderOf P) :
    Nat.card (shortCurve b).Point = addOrderOf P := by
  have hfinite : Finite (shortCurve b).Point := Finite.of_injective _ coordinates_injective
  have hle := card_point_le (b := b)
  rcases addOrderOf_dvd_natCard P with ⟨k, hk⟩
  have hpos : 0 < Nat.card (shortCurve b).Point := Nat.card_pos
  have hk0 : k ≠ 0 := by
    rintro rfl
    omega
  have hk3 : k < 3 := by
    by_contra hge
    have hmul := Nat.mul_le_mul_left (addOrderOf P) (not_lt.mp hge)
    omega
  have hk2 : k ≠ 2 := by
    rintro rfl
    have : Fintype (shortCurve b).Point := Fintype.ofFinite _
    rcases exists_prime_addOrderOf_dvd_card 2
      (Nat.card_eq_fintype_card (α := (shortCurve b).Point) ▸ Dvd.intro_left _ hk.symm) with ⟨Q, hQ⟩
    have hne : Q ≠ 0 := by
      rintro rfl
      rw [addOrderOf_zero] at hQ
      omega
    exact two_nsmul_ne_zero h2 hroot hne (addOrderOf_dvd_iff_nsmul_eq_zero.mp (by rw [hQ]))
  obtain rfl : k = 1 := by omega
  rw [hk, mul_one]

/-- In a group with a point of another order, the elements of a prime order fill one subgroup unless
the group is large. -/
theorem mem_zmultiples_of_card_lt {G : Type*} [AddCommGroup G] [Finite G] {n : ℕ}
    (hn : n.Prime) {g r q : G} (hg : addOrderOf g = n) (hr : (addOrderOf r).Coprime n)
    (hcard : Nat.card G < n * n * addOrderOf r) (hq : n • q = 0) :
    q ∈ AddSubgroup.zmultiples g := by
  by_contra hmem
  have hqn : addOrderOf q = n := by
    refine (hn.eq_one_or_self_of_dvd _ (addOrderOf_dvd_of_nsmul_eq_zero hq)).resolve_left ?_
    intro hone
    rw [AddMonoid.addOrderOf_eq_one_iff.mp hone] at hmem
    exact hmem (AddSubgroup.zero_mem _)
  have hdisjoint : Disjoint (AddSubgroup.zmultiples g) (AddSubgroup.zmultiples q) := by
    rw [AddSubgroup.disjoint_def]
    intro x hxg hxq
    by_contra hne
    have : Fact n.Prime := ⟨hn⟩
    have hcardq : Nat.card (AddSubgroup.zmultiples q) = n := by rw [Nat.card_zmultiples, hqn]
    have hpower : (⟨q, AddSubgroup.mem_zmultiples q⟩ : AddSubgroup.zmultiples q) ∈
        AddSubgroup.zmultiples ⟨x, hxq⟩ :=
      mem_zmultiples_of_prime_card hcardq fun hzero => hne (congrArg Subtype.val hzero)
    obtain ⟨k, hk⟩ := AddSubgroup.mem_zmultiples_iff.mp hpower
    have hkq : k • x = q := congrArg Subtype.val hk
    exact hmem (hkq ▸ AddSubgroup.zsmul_mem _ hxg k)
  -- The sums of multiples of the three elements are distinct, so they are too many.
  have hinj : Function.Injective fun t : (AddSubgroup.zmultiples g × AddSubgroup.zmultiples q) ×
      AddSubgroup.zmultiples r => (t.1.1 + t.1.2 + t.2 : G) := by
    rintro ⟨⟨x, y⟩, z⟩ ⟨⟨x', y'⟩, z'⟩ heq
    have htorsion {u a : G} (ha : addOrderOf a = n) (hu : u ∈ AddSubgroup.zmultiples a) :
        n • u = 0 :=
      addOrderOf_dvd_iff_nsmul_eq_zero.mp (ha ▸ addOrderOf_dvd_of_mem_zmultiples hu)
    have hdiff : (z : G) - z' = (x' - x) + (y' - y) := by
      simp only at heq
      rw [sub_eq_iff_eq_add, ← sub_eq_zero, ← sub_eq_zero.mpr heq]
      abel
    have hn0 : n • ((z : G) - z') = 0 := by
      rw [hdiff, nsmul_add]
      exact (congrArg₂ _ (htorsion hg (x' - x).2) (htorsion hqn (y' - y).2)).trans (add_zero 0)
    have hone : addOrderOf ((z : G) - z') = 1 := Nat.eq_one_of_dvd_coprimes hr
      (addOrderOf_dvd_of_mem_zmultiples (z - z').2) (addOrderOf_dvd_of_nsmul_eq_zero hn0)
    have hz : z = z' := by
      rw [AddMonoid.addOrderOf_eq_one_iff, sub_eq_zero] at hone
      exact Subtype.ext hone
    subst hz
    have hxy : (x, y) = (x', y') :=
      AddSubgroup.add_injective_of_disjoint hdisjoint (add_right_cancel heq)
    rw [hxy]
  have hle := Nat.card_le_card_of_injective _ hinj
  rw [Nat.card_prod, Nat.card_prod, Nat.card_zmultiples, Nat.card_zmultiples,
    Nat.card_zmultiples, hg, hqn] at hle
  omega

omit [DecidableEq F] in
theorem no_cube_root {c : F} {e : ℕ} (he : 3 * e = Fintype.card F - 1) (hc : c ≠ 0)
    (hpow : c ^ e ≠ 1) (x : F) : x ^ 3 ≠ c := by
  rintro rfl
  have hx : x ≠ 0 := fun h => hc (by rw [h, zero_pow three_ne_zero])
  apply hpow
  rw [← pow_mul, he, FiniteField.pow_card_sub_one_eq_one x hx]

end CurveOrder
