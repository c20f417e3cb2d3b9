import LedgerLens.ExtensionInverses
import LedgerLens.Bn254
import Mathlib.Algebra.Polynomial.SpecificDegree
import Mathlib.NumberTheory.LegendreSymbol.Basic

/-!
# The field laws of an extension

`mul_with` and `invert_with` of `contracts/zk_verifier/src/pairing.rs` modulo an irreducible
polynomial with `i64` coefficients. The product reads a coefficient through `unsigned_abs`,
the inverse through `fq_from_i64`, whose negation overflows on the least coefficient.
-/
namespace ExtensionFields

open Polynomial

variable {F : Type*} [Field F] {N : ℕ}

variable (F) in
/-- The contract is built with overflow checks, so the negation of the least value stops it. -/
def fqFromI64 (v : Int64) : Option F :=
  if 0 ≤ v then some (v.toInt.toNat : F)
  else if v = Int64.minValue then none
  else some (-((-v).toInt.toNat : F))

def coefficients (modulusCoeffs : Fin N → Int64) (i : Fin N) : ℤ := (modulusCoeffs i).toInt

variable (F) in
theorem fqFromI64_eq (v : Int64) :
    fqFromI64 F v = if v = Int64.minValue then none else some (v.toInt : F) := by
  rw [fqFromI64]
  by_cases hpos : 0 ≤ v
  · have hne : v ≠ Int64.minValue := by
      rintro rfl
      exact absurd hpos (by decide)
    have hint : (v.toInt.toNat : ℤ) = v.toInt := by
      rw [Int64.le_iff_toInt_le] at hpos
      exact Int.toNat_of_nonneg hpos
    rw [if_pos hpos, if_neg hne, ← Int.cast_natCast, hint]
  · rw [if_neg hpos]
    by_cases hmin : v = Int64.minValue
    · rw [if_pos hmin, if_pos hmin]
    · have hneg : v.toInt < 0 := by
        rw [Int64.le_iff_toInt_le] at hpos
        exact not_le.mp hpos
      have hgt : -2 ^ 63 < v.toInt := by
        have hle := v.le_toInt
        have hne : v.toInt ≠ -2 ^ 63 := fun h => hmin (Int64.toInt_inj.mp h)
        omega
      have hint : (((-v).toInt.toNat : ℕ) : ℤ) = -v.toInt := by
        have hlt := v.toInt_lt
        rw [Int64.toInt_neg, Int.bmod_eq_of_le (by omega) (by omega)]
        exact Int.toNat_of_nonneg (by omega)
      rw [if_neg hmin, if_neg hmin, ← Int.cast_natCast (R := F), hint, Int.cast_neg, neg_neg]

variable [DecidableEq F]

/-- All coefficients are converted before the first pass of the loop. -/
def invertWithChecked (modulusCoeffs : Fin N → Int64) (a : ExtField F N) :
    Option (ExtField F N) :=
  if ∀ i, (fqFromI64 F (modulusCoeffs i)).isSome then
    some (invertWith (coefficients modulusCoeffs) a)
  else none

theorem invertWithChecked_eq (m : Fin N → Int64) (a : ExtField F N) :
    invertWithChecked m a =
      if ∀ i, m i ≠ Int64.minValue then some (invertWith (coefficients m) a) else none := by
  have hsome (i : Fin N) : (fqFromI64 F (m i)).isSome = true ↔ m i ≠ Int64.minValue := by
    rw [fqFromI64_eq]
    split_ifs with h <;> simp [h]
  simp only [invertWithChecked, hsome]

theorem euclidLoop_eq_iterate (d passes : ℕ) (s : Euclid F) :
    ∃ n ≤ passes, euclidLoop d passes s = (euclidStep d)^[n] s ∧
      ∀ k < n, 0 < degOf (d + 1) ((euclidStep d)^[k] s).low := by
  induction passes generalizing s with
  | zero => exact ⟨0, le_rfl, rfl, nofun⟩
  | succ passes ih =>
    rw [euclidLoop]
    split_ifs with hlow
    · obtain ⟨n, hn, heq, hbefore⟩ := ih (euclidStep d s)
      refine ⟨n + 1, by omega, heq, ?_⟩
      intro k hk
      cases k with
      | zero => exact hlow
      | succ k => exact hbefore k (by omega)
    · exact ⟨0, by omega, rfl, nofun⟩

/-- The condition of the `while` loop holds before each of the first `n` passes and not then. -/
def EndsAfter (d : ℕ) (s : Euclid F) (n : ℕ) : Prop :=
  (∀ k < n, 0 < degOf (d + 1) ((euclidStep d)^[k] s).low) ∧
    ¬ 0 < degOf (d + 1) ((euclidStep d)^[n] s).low

theorem invertWith_terminates (hN : 0 < N) (m : Fin N → ℤ) (a : ExtField F N) :
    ∃ n ≤ 4 * N, EndsAfter N (euclidStart m a) n ∧
      invertWith m a = { c := fun i => ((euclidStep N)^[n] (euclidStart m a)).lm i *
        (((euclidStep N)^[n] (euclidStart m a)).low 0)⁻¹ } := by
  obtain ⟨n, hn, heq, hbefore⟩ := euclidLoop_eq_iterate N (4 * N) (euclidStart m a)
  obtain ⟨-, hconst⟩ := (relations_start (m := m) a hN).loop (roundsLeft_start a hN)
  refine ⟨n, hn, ⟨hbefore, ?_⟩, ?_⟩
  · rw [← heq, ← natDegree_poly_pos_iff, hconst]
    exact lt_irrefl 0
  · rw [invertWith, heq]

theorem toPoly_mulWith (hN : 0 < N) (m : Fin N → ℤ) (a b : ExtField F N) :
    (mulWith m a b).toPoly = (a.toPoly * b.toPoly) %ₘ modulus F m := by
  have hreduced : (mulWith m a b).toPoly %ₘ modulus F m = (mulWith m a b).toPoly := by
    rw [modByMonic_eq_self_iff (modulus_monic m), degree_modulus]
    exact degree_poly_lt _ _
  have hembed := embed_mulWith (m := m) hN a b
  rw [embed, embed, embed, ← map_mul, AdjoinRoot.mk_eq_mk] at hembed
  rw [← hreduced]
  exact modByMonic_eq_of_dvd_sub (modulus_monic m) hembed

theorem mulWith_invertWith (hN : 0 < N) (m : Fin N → ℤ) (hirr : Irreducible (modulus F m))
    {a : ExtField F N} (ha : a ≠ 0) : mulWith m a (invertWith m a) = 1 := by
  have : Fact (Irreducible (modulus F m)) := ⟨hirr⟩
  have hne : embed m a ≠ 0 := by
    rw [← embed_zero (m := m)]
    exact fun h => ha (embed_injective m h)
  apply embed_injective m
  rw [embed_mulWith hN, embed_one hN, mul_comm]
  exact embed_invertWith a hN hne.isUnit

/-- What the arithmetic modulo an irreducible polynomial promises: the reduced product, a loop
that ends with the value the inverse is read from, and the inverse. -/
structure FieldLaws (F : Type*) [Field F] [DecidableEq F] {N : ℕ} (m : Fin N → Int64) :
    Prop where
  product : ∀ a b : ExtField F N, (mulWith (coefficients m) a b).toPoly =
    (a.toPoly * b.toPoly) %ₘ modulus F (coefficients m)
  terminates : ∀ a : ExtField F N, ∃ n ≤ 4 * N, EndsAfter N (euclidStart (coefficients m) a) n ∧
    invertWith (coefficients m) a =
      { c := fun i => ((euclidStep N)^[n] (euclidStart (coefficients m) a)).lm i *
        (((euclidStep N)^[n] (euclidStart (coefficients m) a)).low 0)⁻¹ }
  inverse : ∀ a : ExtField F N, a ≠ 0 →
    ∃ b, invertWithChecked m a = some b ∧ mulWith (coefficients m) a b = 1

/-- The laws hold for every degree, and for all coefficients that `i64` can negate. -/
theorem fieldLaws_iff (hN : 0 < N) (m : Fin N → Int64)
    (hirr : Irreducible (modulus F (coefficients m))) :
    FieldLaws F m ↔ ∀ i, m i ≠ Int64.minValue := by
  constructor
  · intro hlaws i hi
    have hone : (1 : ExtField F N) ≠ 0 := by
      intro h
      have hpoly := congrArg ExtField.toPoly h
      rw [ExtField.toPoly_one hN, ExtField.toPoly_zero] at hpoly
      exact one_ne_zero hpoly
    obtain ⟨b, hb, -⟩ := hlaws.inverse 1 hone
    rw [invertWithChecked_eq, if_neg fun h => h i hi] at hb
    cases hb
  · intro hm
    refine ⟨toPoly_mulWith hN _, invertWith_terminates hN _, ?_⟩
    intro a ha
    refine ⟨invertWith (coefficients m) a, ?_, mulWith_invertWith hN _ hirr ha⟩
    rw [invertWithChecked_eq, if_pos hm]

omit [DecidableEq F] in
theorem irreducible_quadratic {m : Fin 2 → ℤ} {c e : F} (hc : (m 1 : F) = 2 * c)
    (he : c ^ 2 - (m 0 : F) = e) (hsquare : ¬ IsSquare e) : Irreducible (modulus F m) := by
  refine irreducible_of_degree_le_three_of_not_isRoot ?_ ?_
  · rw [natDegree_modulus]
    decide
  · intro x hroot
    apply hsquare
    rw [IsRoot, modulus, eval_add, eval_pow, eval_X, eval_finsetSum, Fin.sum_univ_two] at hroot
    simp only [eval_mul, eval_C, eval_X, Fin.val_zero, pow_zero, mul_one, Fin.val_one,
      pow_one, hc] at hroot
    refine ⟨x + c, ?_⟩
    rw [← he]
    linear_combination -hroot

/-- `x² + 1`, the modulus of `Fq2`. -/
theorem fieldLaws_fq2 : FieldLaws Bn254.BaseField ![1, 0] := by
  have hsquare : ¬ IsSquare (-1 : Bn254.BaseField) := by
    rw [ZMod.exists_sq_eq_neg_one_iff]
    decide +kernel
  exact (fieldLaws_iff (by decide) ![1, 0]
    (irreducible_quadratic (c := 0) (by simp [coefficients]) (by simp [coefficients]) hsquare)).mpr
    (by decide)

/-- `x² + 2 x - 2 ^ 63` is irreducible, and no inverse modulo it is computed. -/
theorem not_fieldLaws_minValue :
    Irreducible (modulus Bn254.BaseField (coefficients ![Int64.minValue, 2])) ∧
      invertWithChecked ![Int64.minValue, 2] (1 : ExtField Bn254.BaseField 2) = none ∧
      ¬ FieldLaws Bn254.BaseField ![Int64.minValue, 2] := by
  have hnone : invertWithChecked ![Int64.minValue, 2] (1 : ExtField Bn254.BaseField 2) = none := by
    rw [invertWithChecked_eq, if_neg fun h => h 0 rfl]
  have hsquare : ¬ IsSquare ((2 ^ 63 + 1 : ℕ) : Bn254.BaseField) := by
    rw [ZMod.euler_criterion Bn254.fieldModulus (by decide +kernel),
      LucasCertificate.pow_eq_one_iff (by norm_num) (by decide +kernel)]
    decide +kernel
  refine ⟨irreducible_quadratic (c := 1) ?_ ?_ hsquare, hnone, ?_⟩
  · simp [coefficients]
  · have hmin : coefficients ![Int64.minValue, 2] 0 = -2 ^ 63 := rfl
    rw [hmin]
    push_cast
    ring
  · intro hlaws
    have hone : (1 : ExtField Bn254.BaseField 2) ≠ 0 := by decide +kernel
    obtain ⟨b, hb, -⟩ := hlaws.inverse 1 hone
    rw [hnone] at hb
    cases hb

end ExtensionFields
