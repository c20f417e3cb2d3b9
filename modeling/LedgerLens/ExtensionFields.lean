import LedgerLens.ByteStrings
import Mathlib.RingTheory.AdjoinRoot

/-!
# Extension fields by coefficients

`ExtField` of `contracts/zk_verifier/src/pairing.rs`: elements are arrays of coefficients, products
are reduced by a monic polynomial. The arithmetic is that of the quotient of the polynomials.
-/
namespace ExtensionFields

open ByteStrings Polynomial

variable {F : Type*} [Field F] {N : ℕ}

def addAt (buf : ℕ → F) (k : ℕ) (v : F) : ℕ → F := Function.update buf k (buf k + v)

def subAt (buf : ℕ → F) (k : ℕ) (v : F) : ℕ → F := Function.update buf k (buf k - v)

/-- The polynomial of the first `n` entries. -/
noncomputable def poly (n : ℕ) (buf : ℕ → F) : F[X] := ∑ k ∈ Finset.range n, C (buf k) * X ^ k

section Arrays

variable {n k : ℕ} {buf : ℕ → F} {v : F}

theorem coeff_poly : (poly n buf).coeff k = if k < n then buf k else 0 := by
  simp only [poly, finsetSum_coeff, coeff_C_mul, coeff_X_pow, mul_ite, mul_one, mul_zero]
  rw [Finset.sum_ite_eq]
  simp only [Finset.mem_range]

theorem poly_succ : poly (n + 1) buf = poly n buf + C (buf n) * X ^ n :=
  Finset.sum_range_succ _ n

theorem poly_congr {buf' : ℕ → F} (h : ∀ k < n, buf k = buf' k) : poly n buf = poly n buf' :=
  Finset.sum_congr rfl fun k hk => by rw [h k (Finset.mem_range.mp hk)]

theorem coeff_of_natDegree_lt (hk : k < n) (h : (poly n buf).natDegree < k) : buf k = 0 := by
  have hcoeff := coeff_eq_zero_of_natDegree_lt h
  rwa [coeff_poly, if_pos hk] at hcoeff

theorem degree_poly_lt (n : ℕ) (buf : ℕ → F) : (poly n buf).degree < n := by
  rw [degree_lt_iff_coeff_zero]
  intro k hk
  rw [coeff_poly, if_neg (not_lt.mpr hk)]

theorem subAt_eq_addAt : subAt buf k v = addAt buf k (-v) := by
  rw [subAt, addAt, sub_eq_add_neg]

theorem poly_addAt (hk : k < n) : poly n (addAt buf k v) = poly n buf + C v * X ^ k := by
  ext i
  rw [coeff_add, coeff_poly, coeff_poly, coeff_C_mul, coeff_X_pow]
  by_cases hi : i = k
  · subst hi
    rw [if_pos hk, if_pos hk, if_pos rfl, addAt, Function.update_self, mul_one]
  · rw [addAt, Function.update_of_ne hi, if_neg hi, mul_zero, add_zero]

theorem poly_foldl {ι : Type*} {step : (ℕ → F) → ι → ℕ → F} {gain : ι → F[X]} {l : List ι}
    (h : ∀ buf, ∀ i ∈ l, poly n (step buf i) = poly n buf + gain i) (buf : ℕ → F) :
    poly n (l.foldl step buf) = poly n buf + (l.map gain).sum := by
  induction l generalizing buf with
  | nil => rw [List.foldl_nil, List.map_nil, List.sum_nil, add_zero]
  | cons i l ih =>
    rw [List.foldl_cons, ih fun buf i hi => h buf i (List.mem_cons_of_mem _ hi),
      h buf i List.mem_cons_self, List.map_cons, List.sum_cons, add_assoc]

theorem poly_foldl_fin {count : ℕ} {step : (ℕ → F) → Fin count → ℕ → F} {gain : Fin count → F[X]}
    (h : ∀ buf i, poly n (step buf i) = poly n buf + gain i) (buf : ℕ → F) :
    poly n ((List.finRange count).foldl step buf) = poly n buf + ∑ i, gain i := by
  rw [poly_foldl fun buf i _ => h buf i, Fin.sum_univ_def]

theorem poly_foldl_range {count : ℕ} {step : (ℕ → F) → ℕ → ℕ → F} {gain : ℕ → F[X]}
    (h : ∀ buf, ∀ i < count, poly n (step buf i) = poly n buf + gain i) (buf : ℕ → F) :
    poly n ((List.range count).foldl step buf) =
      poly n buf + ∑ i ∈ Finset.range count, gain i :=
  poly_foldl (fun buf i hi => h buf i (List.mem_range.mp hi)) buf

end Arrays

@[ext] structure ExtField (F : Type*) (N : ℕ) where
  c : Fin N → F

namespace ExtField

instance [DecidableEq F] : DecidableEq (ExtField F N) := fun a b =>
  decidable_of_iff (a.c = b.c) ExtField.ext_iff.symm

instance : Zero (ExtField F N) := ⟨⟨fun _ => 0⟩⟩

instance : One (ExtField F N) := ⟨⟨fun i => if i.val = 0 then 1 else 0⟩⟩

instance : Add (ExtField F N) := ⟨fun a b => ⟨fun i => a.c i + b.c i⟩⟩

instance : Sub (ExtField F N) := ⟨fun a b => ⟨fun i => a.c i - b.c i⟩⟩

/-- The coefficients as the first entries of an array of zeros. -/
def pad (a : ExtField F N) (k : ℕ) : F := if h : k < N then a.c ⟨k, h⟩ else 0

theorem pad_val (a : ExtField F N) (i : Fin N) : a.pad i = a.c i := dif_pos i.isLt

noncomputable def toPoly (a : ExtField F N) : F[X] := poly N a.pad

theorem toPoly_eq_sum (a : ExtField F N) : a.toPoly = ∑ i : Fin N, C (a.c i) * X ^ i.val := by
  rw [toPoly, poly, Finset.sum_range]
  simp only [pad_val]

theorem toPoly_injective : Function.Injective (toPoly : ExtField F N → F[X]) := by
  intro a b h
  ext i
  have hcoeff := congrArg (Polynomial.coeff · i.val) h
  simp only [toPoly, coeff_poly, if_pos i.isLt, pad_val] at hcoeff
  exact hcoeff

theorem toPoly_add (a b : ExtField F N) : (a + b).toPoly = a.toPoly + b.toPoly := by
  simp only [toPoly_eq_sum, ← Finset.sum_add_distrib, ← add_mul, ← C_add]
  rfl

theorem toPoly_sub (a b : ExtField F N) : (a - b).toPoly = a.toPoly - b.toPoly := by
  simp only [toPoly_eq_sum, ← Finset.sum_sub_distrib, ← sub_mul, ← C_sub]
  rfl

theorem toPoly_zero : (0 : ExtField F N).toPoly = 0 := by
  rw [toPoly_eq_sum]
  exact Finset.sum_eq_zero fun _ _ => by
    rw [show (0 : ExtField F N).c _ = 0 from rfl, C_0, zero_mul]

theorem toPoly_one (hN : 0 < N) : (1 : ExtField F N).toPoly = 1 := by
  rw [toPoly]
  ext k
  rw [coeff_poly, coeff_one]
  by_cases hk : k < N
  · rw [if_pos hk, pad, dif_pos hk]
    rfl
  · rw [if_neg hk, if_neg (by omega)]

end ExtField

section Products

variable [DecidableEq F]

/-- The coefficients of the product, before its reduction. -/
def convolve (a b : ExtField F N) : ℕ → F :=
  (List.finRange N).foldl (fun buf i =>
    if a.c i = 0 then buf
    else (List.finRange N).foldl (fun buf j => addAt buf (i.val + j.val) (a.c i * b.c j)) buf)
    fun _ => 0

/-- The coefficient at `exp + N` is moved down, by the modulus. -/
def reduceAt (modulusCoeffs : Fin N → ℤ) (buf : ℕ → F) (exp : ℕ) : ℕ → F :=
  let top := buf (exp + N)
  if top = 0 then buf
  else (List.finRange N).foldl (fun buf k =>
    if 0 ≤ modulusCoeffs k then
      subAt buf (exp + k.val) (top * ((modulusCoeffs k).natAbs : F))
    else addAt buf (exp + k.val) (top * ((modulusCoeffs k).natAbs : F))) buf

def mulWith (modulusCoeffs : Fin N → ℤ) (a b : ExtField F N) : ExtField F N where
  c i := (List.range (N - 1)).reverse.foldl (reduceAt modulusCoeffs) (convolve a b) i

/-- The square and multiply loop over the bits of the bytes, from the highest. -/
def powBeBytes (modulusCoeffs : Fin N → ℤ) (a : ExtField F N) (bytes : List UInt8) :
    ExtField F N :=
  bytes.foldl (fun result byte => (List.range 8).reverse.foldl (fun result bit =>
    let squared := mulWith modulusCoeffs result result
    if byte.toNat.testBit bit then mulWith modulusCoeffs squared a else squared) result) 1

end Products

noncomputable def modulus (F : Type*) [Field F] (modulusCoeffs : Fin N → ℤ) : F[X] :=
  X ^ N + ∑ i : Fin N, C (modulusCoeffs i : F) * X ^ i.val

section Quotient

variable {m : Fin N → ℤ}

theorem foldl_downwards {α : Type*} (f : α → ℕ → α) (a : α) (n : ℕ) :
    (List.range (n + 1)).reverse.foldl f a = (List.range n).reverse.foldl f (f a n) := by
  rw [List.range_succ, List.reverse_append, List.reverse_singleton, List.singleton_append,
    List.foldl_cons]

theorem degree_lower_lt (m : Fin N → ℤ) :
    (∑ i : Fin N, C (m i : F) * X ^ i.val : F[X]).degree < N :=
  (degree_sum_fin_lt fun i => (m i : F))

theorem modulus_monic (m : Fin N → ℤ) : (modulus F m).Monic := monic_X_pow_add (degree_lower_lt m)

theorem degree_modulus (m : Fin N → ℤ) : (modulus F m).degree = N := by
  have h : (∑ i : Fin N, C (m i : F) * X ^ i.val : F[X]).degree < (X ^ N : F[X]).degree := by
    rw [degree_X_pow]
    exact degree_lower_lt m
  rw [modulus, degree_add_eq_left_of_degree_lt h, degree_X_pow]

noncomputable def embed (m : Fin N → ℤ) (a : ExtField F N) : AdjoinRoot (modulus F m) :=
  AdjoinRoot.mk (modulus F m) a.toPoly

theorem embed_injective (m : Fin N → ℤ) :
    Function.Injective (embed m : ExtField F N → AdjoinRoot (modulus F m)) := by
  intro a b h
  apply ExtField.toPoly_injective
  by_contra hne
  have hdegree : (a.toPoly - b.toPoly).degree < (modulus F m).degree := by
    rw [degree_modulus]
    exact (degree_sub_le _ _).trans_lt (max_lt (degree_poly_lt _ _) (degree_poly_lt _ _))
  exact (modulus_monic m).not_dvd_of_degree_lt (sub_ne_zero.mpr hne) hdegree
    (AdjoinRoot.mk_eq_mk.mp h)

theorem embed_add (a b : ExtField F N) : embed m (a + b) = embed m a + embed m b := by
  rw [embed, ExtField.toPoly_add, map_add]
  rfl

theorem embed_sub (a b : ExtField F N) : embed m (a - b) = embed m a - embed m b := by
  rw [embed, ExtField.toPoly_sub, map_sub]
  rfl

theorem embed_zero : embed m (0 : ExtField F N) = 0 := by
  rw [embed, ExtField.toPoly_zero, map_zero]

theorem embed_one (hN : 0 < N) : embed m (1 : ExtField F N) = 1 := by
  rw [embed, ExtField.toPoly_one hN, map_one]

variable [DecidableEq F]

theorem poly_convolve (a b : ExtField F N) :
    poly (2 * N - 1) (convolve a b) = a.toPoly * b.toPoly := by
  have hrow (i : Fin N) (buf : ℕ → F) : poly (2 * N - 1) ((List.finRange N).foldl
      (fun buf j => addAt buf (i.val + j.val) (a.c i * b.c j)) buf) =
        poly (2 * N - 1) buf + C (a.c i) * X ^ i.val * b.toPoly := by
    have hentry (buf : ℕ → F) (j : Fin N) :
        poly (2 * N - 1) (addAt buf (i.val + j.val) (a.c i * b.c j)) =
          poly (2 * N - 1) buf + C (a.c i * b.c j) * X ^ (i.val + j.val) := poly_addAt (by omega)
    rw [poly_foldl_fin hentry, ExtField.toPoly_eq_sum, Finset.mul_sum]
    refine congrArg₂ _ rfl (Finset.sum_congr rfl fun j _ => ?_)
    rw [C_mul, pow_add]
    ring
  have hrows (buf : ℕ → F) (i : Fin N) : poly (2 * N - 1) (if a.c i = 0 then buf
      else (List.finRange N).foldl (fun buf j => addAt buf (i.val + j.val) (a.c i * b.c j)) buf) =
        poly (2 * N - 1) buf + C (a.c i) * X ^ i.val * b.toPoly := by
    split_ifs with hzero
    · rw [hzero, C_0, zero_mul, zero_mul, add_zero]
    · exact hrow i buf
  have hstart : poly (2 * N - 1) (fun _ => (0 : F)) = 0 := by
    ext k
    rw [coeff_poly, ite_self, coeff_zero]
  rw [convolve, poly_foldl_fin hrows, hstart, zero_add, ← Finset.sum_mul,
    ← ExtField.toPoly_eq_sum]

/-- One step of the reduction takes a multiple of the modulus away. -/
theorem poly_reduceAt (buf : ℕ → F) (exp : ℕ) : poly (exp + N + 1) buf =
    poly (exp + N) (reduceAt m buf exp) + C (buf (exp + N)) * X ^ exp * modulus F m := by
  have hlower : poly (exp + N) (reduceAt m buf exp) =
      poly (exp + N) buf -
        ∑ k : Fin N, C (buf (exp + N)) * X ^ exp * (C (m k : F) * X ^ k.val) := by
    rw [reduceAt]
    split_ifs with hzero
    · rw [hzero, C_0]
      simp only [zero_mul, Finset.sum_const_zero, sub_zero]
    · have hstep : (fun (buf' : ℕ → F) (k : Fin N) => if 0 ≤ m k then
            subAt buf' (exp + k.val) (buf (exp + N) * ((m k).natAbs : F))
          else addAt buf' (exp + k.val) (buf (exp + N) * ((m k).natAbs : F))) =
          fun buf' k => addAt buf' (exp + k.val) (-(buf (exp + N) * (m k : F))) := by
        funext buf' k
        split_ifs with hsign
        · rw [subAt_eq_addAt, ← Int.cast_natCast, Int.natAbs_of_nonneg hsign]
        · rw [← mul_neg, ← Int.cast_neg, ← Int.cast_natCast,
            Int.ofNat_natAbs_of_nonpos (not_le.mp hsign).le]
      have hentry (buf' : ℕ → F) (k : Fin N) :
          poly (exp + N) (addAt buf' (exp + k.val) (-(buf (exp + N) * (m k : F)))) =
            poly (exp + N) buf' + C (-(buf (exp + N) * (m k : F))) * X ^ (exp + k.val) :=
        poly_addAt (by omega)
      rw [hstep, poly_foldl_fin hentry, sub_eq_add_neg, ← Finset.sum_neg_distrib]
      refine congrArg₂ _ rfl (Finset.sum_congr rfl fun k _ => ?_)
      rw [C_neg, C_mul, pow_add]
      ring
  rw [poly_succ, hlower, modulus, mul_add, Finset.mul_sum, mul_assoc, ← pow_add]
  ring

/-- The product of elements is the product in the quotient. -/
theorem embed_mulWith (hN : 0 < N) (a b : ExtField F N) :
    embed m (mulWith m a b) = embed m a * embed m b := by
  have hreduce (steps : ℕ) (buf : ℕ → F) : AdjoinRoot.mk (modulus F m) (poly (steps + N) buf) =
      AdjoinRoot.mk (modulus F m) (poly N
        ((List.range steps).reverse.foldl (reduceAt m) buf)) := by
    induction steps generalizing buf with
    | zero => rw [List.range_zero, List.reverse_nil, List.foldl_nil, Nat.zero_add]
    | succ steps ih =>
      rw [foldl_downwards, ← ih, show steps + 1 + N = steps + N + 1 by omega,
        poly_reduceAt (m := m), map_add, map_mul, AdjoinRoot.mk_self, mul_zero, add_zero]
  have hresult : (mulWith m a b).toPoly =
      poly N ((List.range (N - 1)).reverse.foldl (reduceAt m) (convolve a b)) := by
    refine poly_congr fun k hk => ?_
    rw [ExtField.pad, dif_pos hk]
    rfl
  rw [embed, hresult, ← hreduce, show N - 1 + N = 2 * N - 1 by omega, poly_convolve, map_mul]
  rfl

theorem embed_powBits (hN : 0 < N) (a result : ExtField F N) (byte bits : ℕ) :
    embed m ((List.range bits).reverse.foldl (fun result bit =>
      let squared := mulWith m result result
      if byte.testBit bit then mulWith m squared a else squared) result) =
        embed m result ^ 2 ^ bits * embed m a ^ (byte % 2 ^ bits) := by
  induction bits generalizing result with
  | zero => simp [Nat.mod_one]
  | succ bits ih =>
    rw [foldl_downwards, ih, Nat.mod_pow_succ, ← Nat.toNat_testBit, pow_add, pow_mul]
    cases byte.testBit bits with
    | false =>
      simp only [Bool.false_eq_true, if_false, embed_mulWith hN, Bool.toNat_false]
      ring
    | true =>
      simp only [if_true, embed_mulWith hN, Bool.toNat_true]
      ring

theorem embed_powBeBytes (hN : 0 < N) (a : ExtField F N) (bytes : List UInt8) :
    embed m (powBeBytes m a bytes) = embed m a ^ ofBigEndian bytes := by
  induction bytes using List.reverseRecOn with
  | nil => rw [ofBigEndian_nil, pow_zero, powBeBytes, List.foldl_nil, embed_one hN]
  | append_singleton bytes byte ih =>
    have hbyte : byte.toNat % 2 ^ 8 = byte.toNat := Nat.mod_eq_of_lt byte.toNat_lt
    rw [powBeBytes] at ih ⊢
    rw [List.foldl_append, List.foldl_cons, List.foldl_nil, embed_powBits hN, ih, hbyte, ← pow_mul,
      ← pow_add, ofBigEndian_concat, mul_comm]
    rfl

end Quotient

end ExtensionFields
