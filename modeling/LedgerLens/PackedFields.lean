import LedgerLens.ExtensionFields
import Mathlib.Algebra.Field.ZMod

/-!
# Extension fields in one number

The coefficients of an element are the digits of a number, in a base so large that the digits of a
product are the coefficients of the product. An evaluation then multiplies elements of the field by
one multiplication of numbers. The modulus is a trinomial `w^2h - s w^h + t`.
-/
namespace PackedFields

open ByteStrings ExtensionFields Polynomial

section Digits

variable {base n m : ℕ} {digits digits' : ℕ → ℕ}

def number (base n : ℕ) (digits : ℕ → ℕ) : ℕ := ∑ k ∈ Finset.range n, digits k * base ^ k

theorem number_succ : number base (n + 1) digits =
    digits 0 + base * number base n fun k => digits (k + 1) := by
  rw [number, Finset.sum_range_succ', pow_zero, mul_one, add_comm, number, Finset.mul_sum]
  refine congrArg₂ _ rfl (Finset.sum_congr rfl fun k _ => ?_)
  rw [pow_succ]
  ring

theorem number_add : number base (n + m) digits =
    number base n digits + base ^ n * number base m fun k => digits (n + k) := by
  rw [number, Finset.sum_range_add, number, number, Finset.mul_sum]
  refine congrArg₂ _ rfl (Finset.sum_congr rfl fun k _ => ?_)
  rw [pow_add]
  ring

theorem number_linear (u v w : ℕ → ℕ) (x y : ℕ) :
    number base n (fun k => u k + (x * v k + y * w k)) =
      number base n u + (x * number base n v + y * number base n w) := by
  simp only [number, add_mul, mul_assoc, Finset.sum_add_distrib, Finset.mul_sum]

theorem number_lt (h : ∀ k < n, digits k < base) : number base n digits < base ^ n := by
  induction n generalizing digits with
  | zero => exact Nat.one_pos
  | succ n ih =>
    have hrest := ih fun k hk => h (k + 1) (by omega)
    rw [number_succ, pow_succ']
    calc digits 0 + base * number base n (fun k => digits (k + 1))
        < base * 1 + base * number base n fun k => digits (k + 1) := by
          rw [mul_one]
          exact Nat.add_lt_add_right (h 0 n.succ_pos) _
      _ ≤ base * base ^ n := by
          rw [← mul_add, add_comm]
          exact Nat.mul_le_mul_left base hrest

theorem number_split (h : ∀ k < n, digits k < base) :
    number base (n + m) digits % base ^ n = number base n digits ∧
      number base (n + m) digits / base ^ n = number base m fun k => digits (n + k) := by
  have hlt := number_lt h
  rw [number_add, Nat.add_mul_mod_self_left, Nat.mod_eq_of_lt hlt,
    Nat.add_mul_div_left _ _ (Nat.zero_lt_of_lt hlt), Nat.div_eq_of_lt hlt, zero_add]
  exact ⟨rfl, rfl⟩

theorem number_inj (h : ∀ k < n, digits k < base) (h' : ∀ k < n, digits' k < base)
    (heq : number base n digits = number base n digits') : ∀ k < n, digits k = digits' k := by
  induction n generalizing digits digits' with
  | zero => exact fun k hk => absurd hk (Nat.not_lt_zero k)
  | succ n ih =>
    rw [number_succ, number_succ] at heq
    have hbase := Nat.zero_lt_of_lt (h 0 n.succ_pos)
    have hfirst := congrArg (· % base) heq
    have hrest := congrArg (· / base) heq
    simp only [Nat.add_mul_mod_self_left, Nat.mod_eq_of_lt (h 0 n.succ_pos),
      Nat.mod_eq_of_lt (h' 0 n.succ_pos)] at hfirst
    simp only [Nat.add_mul_div_left _ _ hbase, Nat.div_eq_of_lt (h 0 n.succ_pos),
      Nat.div_eq_of_lt (h' 0 n.succ_pos), zero_add] at hrest
    intro k hk
    cases k with
    | zero => exact hfirst
    | succ k =>
      exact ih (fun k hk => h (k + 1) (by omega)) (fun k hk => h' (k + 1) (by omega)) hrest k
        (by omega)

/-- Every digit to its remainder, in the operations that the kernel computes at once. -/
def reduce (p base : ℕ) : ℕ → ℕ → ℕ
  | 0, _ => 0
  | n + 1, x => Nat.add (Nat.mod (Nat.mod x base) p)
      (Nat.mul base (reduce p base n (Nat.div x base)))

theorem reduce_succ (p x : ℕ) :
    reduce p base (n + 1) x = x % base % p + base * reduce p base n (x / base) := rfl

theorem reduce_number (p : ℕ) (h : ∀ k < n, digits k < base) :
    reduce p base n (number base n digits) = number base n fun k => digits k % p := by
  induction n generalizing digits with
  | zero => rfl
  | succ n ih =>
    have hbase := Nat.zero_lt_of_lt (h 0 n.succ_pos)
    rw [number_succ, reduce_succ, Nat.add_mul_mod_self_left, Nat.mod_eq_of_lt (h 0 n.succ_pos),
      Nat.add_mul_div_left _ _ hbase, Nat.div_eq_of_lt (h 0 n.succ_pos), zero_add,
      ih fun k hk => h (k + 1) (by omega), number_succ]

theorem number_mul (a c : ℕ → ℕ) : number base n a * number base n c =
    number base (n + n) ((∑ i ∈ Finset.range n, C (a i) * X ^ i) *
      ∑ j ∈ Finset.range n, C (c j) * X ^ j : ℕ[X]).coeff := by
  have heval (digits : ℕ → ℕ) : number base n digits =
      (∑ i ∈ Finset.range n, C (digits i) * X ^ i : ℕ[X]).eval base := by
    simp only [number, eval_finsetSum, eval_mul, eval_C, eval_pow, eval_X]
  have hdegree (digits : ℕ → ℕ) :
      (∑ i ∈ Finset.range n, C (digits i) * X ^ i : ℕ[X]).natDegree ≤ n - 1 :=
    natDegree_sum_le_of_forall_le _ _ fun i hi =>
      (natDegree_C_mul_X_pow_le _ _).trans (by have := Finset.mem_range.mp hi; omega)
  rcases Nat.eq_zero_or_pos n with rfl | hn
  · rfl
  · rw [heval, heval, ← eval_mul, eval_eq_sum_range' (n := n + n)
      (natDegree_mul_le.trans_lt (by have := hdegree a; have := hdegree c; omega))]
    rfl

theorem coeff_product_lt {p : ℕ} (hp : 0 < p) {a c : ℕ → ℕ} (ha : ∀ k, a k < p)
    (hc : ∀ k, c k < p) {k : ℕ} (hk : k < n + n) :
    ((∑ i ∈ Finset.range n, C (a i) * X ^ i) *
      ∑ j ∈ Finset.range n, C (c j) * X ^ j : ℕ[X]).coeff k < (n + n) * p ^ 2 := by
  have hcoeff {digits : ℕ → ℕ} (hdigits : ∀ k, digits k < p) (i : ℕ) :
      (∑ i ∈ Finset.range n, C (digits i) * X ^ i : ℕ[X]).coeff i < p := by
    simp only [finsetSum_coeff, coeff_C_mul, coeff_X_pow, mul_ite, mul_one, mul_zero]
    rw [Finset.sum_ite_eq]
    split_ifs
    · exact hdigits i
    · exact hp
  rw [coeff_mul]
  calc ∑ x ∈ Finset.HasAntidiagonal.antidiagonal k, _
      < ∑ _x ∈ Finset.HasAntidiagonal.antidiagonal k, p ^ 2 := by
        refine Finset.sum_lt_sum_of_nonempty ⟨(0, k), ?_⟩ fun x _ => ?_
        · rw [Finset.HasAntidiagonal.mem_antidiagonal, zero_add]
        · rw [sq]
          exact Nat.mul_lt_mul'' (hcoeff ha x.1) (hcoeff hc x.2)
    _ ≤ (n + n) * p ^ 2 := by
        rw [Finset.sum_const, Finset.Nat.card_antidiagonal, smul_eq_mul]
        exact Nat.mul_le_mul_right _ hk

end Digits

section Elements

variable {p N : ℕ} [Fact p.Prime] {base : ℕ} {v : ExtField (ZMod p) N}

def digits (v : ExtField (ZMod p) N) (k : ℕ) : ℕ := (v.pad k).val

def pack (base : ℕ) (v : ExtField (ZMod p) N) : ℕ := number base N (digits v)

theorem digits_zero (k : ℕ) : digits (0 : ExtField (ZMod p) N) k = 0 := by
  rw [digits, ExtField.pad]
  split_ifs <;> exact ZMod.val_zero

theorem digits_one {k : ℕ} (hk : k < N) :
    digits (1 : ExtField (ZMod p) N) k = if k = 0 then 1 else 0 := by
  rw [digits, ExtField.pad, dif_pos hk]
  refine (apply_ite ZMod.val (k = 0) 1 0).trans ?_
  rw [ZMod.val_one, ZMod.val_zero]

theorem digits_lt (v : ExtField (ZMod p) N) (k : ℕ) : digits v k < p := ZMod.val_lt _

theorem pack_injective (h : p ≤ base) :
    Function.Injective (pack base : ExtField (ZMod p) N → ℕ) := by
  intro v w heq
  have hdigits := number_inj (fun k _ => (digits_lt v k).trans_le h)
    (fun k _ => (digits_lt w k).trans_le h) heq
  ext i
  have hval := ZMod.val_injective p (hdigits i i.isLt)
  rwa [ExtField.pad_val, ExtField.pad_val] at hval

theorem reduce_eq_pack {r : ℕ → ℕ} (hr : ∀ k < N, r k < base)
    (hv : ∀ i : Fin N, v.c i = (r i : ZMod p)) :
    reduce p base N (number base N r) = pack base v := by
  rw [reduce_number p hr]
  refine Finset.sum_congr rfl fun k hk => ?_
  rw [digits, ExtField.pad, dif_pos (Finset.mem_range.mp hk), hv, ZMod.val_natCast]

theorem map_digits (v : ExtField (ZMod p) N) :
    (∑ i ∈ Finset.range N, C (digits v i) * X ^ i : ℕ[X]).map (Nat.castRingHom (ZMod p)) =
      v.toPoly := by
  rw [Polynomial.map_sum, ExtField.toPoly, poly]
  refine Finset.sum_congr rfl fun k _ => ?_
  rw [Polynomial.map_mul, Polynomial.map_pow, map_C, map_X, digits, eq_natCast,
    ZMod.natCast_zmod_val]

end Elements

def addWords (p base n x y : ℕ) : ℕ := reduce p base n (x + y)

def subWords (p base n x y : ℕ) : ℕ := reduce p base n (x + (p - 1) * y)

/-- With `w^2h = s w^h - t` the upper half of a product moves down in two parts. -/
def mulWords (p h s t base x y : ℕ) : ℕ :=
  let half := base ^ h
  let full := half * half
  let product := x * y
  let high := product / full
  let high0 := high % half
  let high1 := high / half
  reduce p base (h + h) (product % full + ((p - t) * high0 + (p - s * t) * high1) +
    half * (s * high0 + (s * s - t) * high1))

section Arithmetic

variable {p N base : ℕ} [Fact p.Prime]

theorem addWords_pack (hbase : p + p ≤ base) (a b : ExtField (ZMod p) N) :
    addWords p base N (pack base a) (pack base b) = pack base (a + b) := by
  have hsum : pack base a + pack base b = number base N fun k => digits a k + digits b k := by
    simp only [pack, number, ← Finset.sum_add_distrib, add_mul]
  rw [addWords, hsum]
  refine reduce_eq_pack (fun k _ => ?_) fun i => ?_
  · have := digits_lt a k
    have := digits_lt b k
    omega
  · rw [Nat.cast_add, digits, digits, ZMod.natCast_zmod_val, ZMod.natCast_zmod_val,
      ExtField.pad_val, ExtField.pad_val]
    rfl

theorem subWords_pack (hbase : p * p ≤ base) (a b : ExtField (ZMod p) N) :
    subWords p base N (pack base a) (pack base b) = pack base (a - b) := by
  have hsum : pack base a + (p - 1) * pack base b =
      number base N fun k => digits a k + (p - 1) * digits b k := by
    simp only [pack, number, Finset.mul_sum, ← Finset.sum_add_distrib, add_mul, mul_assoc]
  have hp := (Fact.out : p.Prime).one_lt
  rw [subWords, hsum]
  refine reduce_eq_pack (fun k _ => ?_) fun i => ?_
  · have ha := digits_lt a k
    have hb : (p - 1) * digits b k ≤ (p - 1) * (p - 1) :=
      Nat.mul_le_mul_left _ (Nat.le_sub_one_of_lt (digits_lt b k))
    have hsquare : (p - 1) * (p - 1) + p + (p - 1) = p * p := by
      obtain ⟨q, rfl⟩ := Nat.exists_eq_add_of_lt hp
      rw [Nat.add_sub_cancel]
      ring
    omega
  · rw [Nat.cast_add, Nat.cast_mul, Nat.cast_sub hp.le, ZMod.natCast_self, digits, digits,
      ZMod.natCast_zmod_val, ZMod.natCast_zmod_val, ExtField.pad_val, ExtField.pad_val,
      Nat.cast_one, zero_sub, neg_one_mul, ← sub_eq_add_neg]
    rfl

end Arithmetic

section Products

variable {p h s t base : ℕ} [Fact p.Prime] {m : Fin (h + h) → ℤ}

def lowDigits (p h s t : ℕ) (c : ℕ → ℕ) (k : ℕ) : ℕ :=
  c k + ((p - t) * c (h + h + k) + (p - s * t) * c (h + h + (h + k)))

def highDigits (h s t : ℕ) (c : ℕ → ℕ) (k : ℕ) : ℕ :=
  c (h + k) + (s * c (h + h + k) + (s * s - t) * c (h + h + (h + k)))

def resultDigits (p h s t : ℕ) (c : ℕ → ℕ) (k : ℕ) : ℕ :=
  if k < h then lowDigits p h s t c k else highDigits h s t c (k - h)

omit [Fact p.Prime] in
theorem resultDigits_lt {bound : ℕ} {c : ℕ → ℕ} (hc : ∀ k < h + h + (h + h), c k < bound)
    (hbase : bound * (1 + s + s * s + p + p) ≤ base) {k : ℕ} (hk : k < h + h) :
    resultDigits p h s t c k < base := by
  refine lt_of_lt_of_le ?_ hbase
  rw [resultDigits]
  split_ifs with hlow
  · have h0 := hc k (by omega)
    have h2 := Nat.mul_le_mul (Nat.sub_le p t) (hc (h + h + k) (by omega)).le
    have h3 := Nat.mul_le_mul (Nat.sub_le p (s * t)) (hc (h + h + (h + k)) (by omega)).le
    rw [lowDigits]
    nlinarith only [h0, h2, h3]
  · have h1 := hc (h + (k - h)) (by omega)
    have h2 := Nat.mul_le_mul_left s (hc (h + h + (k - h)) (by omega)).le
    have h3 := Nat.mul_le_mul (Nat.sub_le (s * s) t) (hc (h + h + (h + (k - h))) (by omega)).le
    rw [highDigits]
    nlinarith only [h1, h2, h3]

omit [Fact p.Prime] in
theorem number_resultDigits (c : ℕ → ℕ) : number base (h + h) (resultDigits p h s t c) =
    number base h (lowDigits p h s t c) + base ^ h * number base h (highDigits h s t c) := by
  rw [number_add]
  refine congrArg₂ _ (Finset.sum_congr rfl fun k hk => ?_)
    (congrArg _ (Finset.sum_congr rfl fun k hk => ?_))
  · rw [resultDigits, if_pos (Finset.mem_range.mp hk)]
  · show resultDigits p h s t c (h + k) * base ^ k = _
    rw [resultDigits, if_neg (by omega), Nat.add_sub_cancel_left]

omit [Fact p.Prime] in
theorem mulWords_number {x y : ℕ} {c : ℕ → ℕ} (hc : ∀ k < h + h + (h + h), c k < base)
    (hxy : x * y = number base (h + h + (h + h)) c) :
    mulWords p h s t base x y =
      reduce p base (h + h) (number base (h + h) (resultDigits p h s t c)) := by
  obtain ⟨hlow, hhigh⟩ := number_split (n := h + h) (m := h + h) fun k hk => hc k (by omega)
  obtain ⟨hhigh0, hhigh1⟩ := @number_split base h h (fun k => c (h + h + k))
    fun k hk => hc _ (by omega)
  simp only [mulWords, ← pow_add]
  rw [hxy, hlow, hhigh, hhigh0, hhigh1, number_resultDigits, number_add (n := h)]
  have hlowDigits : number base h (lowDigits p h s t c) = _ := number_linear _ _ _ _ _
  have hhighDigits : number base h (highDigits h s t c) = _ := number_linear _ _ _ _ _
  rw [hlowDigits, hhighDigits]
  refine congrArg _ ?_
  ring

theorem poly_add {F : Type*} [Field F] (n k : ℕ) (buf : ℕ → F) :
    poly (n + k) buf = poly n buf + X ^ n * poly k fun i => buf (n + i) := by
  rw [poly, Finset.sum_range_add, poly, poly, Finset.mul_sum]
  refine congrArg₂ _ rfl (Finset.sum_congr rfl fun i _ => ?_)
  rw [pow_add]
  ring

theorem poly_linear {F : Type*} [Field F] (n : ℕ) (u v w : ℕ → F) (x y : F) :
    poly n (fun k => u k + (x * v k + y * w k)) =
      poly n u + (C x * poly n v + C y * poly n w) := by
  simp only [poly, C_add, C_mul, add_mul, mul_assoc, Finset.sum_add_distrib, Finset.mul_sum]

/-- The digits of the result stand for the product modulo the trinomial. -/
theorem dvd_sub_resultDigits (ht : t ≤ p) (hst : s * t ≤ p) (hss : t ≤ s * s) (c : ℕ → ℕ) :
    (X ^ (h + h) - C (s : ZMod p) * X ^ h + C (t : ZMod p)) ∣
      poly (h + h) (fun k => (resultDigits p h s t c k : ZMod p)) -
        poly (h + h + (h + h)) fun k => (c k : ZMod p) := by
  have hresult : poly (h + h) (fun k => (resultDigits p h s t c k : ZMod p)) =
      poly h (fun k => (lowDigits p h s t c k : ZMod p)) +
        X ^ h * poly h fun k => (highDigits h s t c k : ZMod p) := by
    rw [poly_add]
    refine congrArg₂ _ (poly_congr fun k hk => ?_) (congrArg _ (poly_congr fun k hk => ?_))
    · rw [resultDigits, if_pos hk]
    · rw [resultDigits, if_neg (by omega), Nat.add_sub_cancel_left]
  have hlow : (fun k => (lowDigits p h s t c k : ZMod p)) = fun k => (c k : ZMod p) +
      (-(t : ZMod p) * (c (h + h + k) : ZMod p) +
        -((s : ZMod p) * t) * (c (h + h + (h + k)) : ZMod p)) := by
    funext k
    rw [lowDigits]
    push_cast [Nat.cast_sub ht, Nat.cast_sub hst]
    rw [ZMod.natCast_self, zero_sub, zero_sub]
  have hhigh : (fun k => (highDigits h s t c k : ZMod p)) = fun k => (c (h + k) : ZMod p) +
      ((s : ZMod p) * (c (h + h + k) : ZMod p) +
        ((s : ZMod p) * s - t) * (c (h + h + (h + k)) : ZMod p)) := by
    funext k
    rw [highDigits]
    push_cast [Nat.cast_sub hss]
    rfl
  rw [hresult, hlow, hhigh, poly_linear, poly_linear, poly_add (h + h), poly_add h, poly_add h]
  refine ⟨-(poly h (fun k => (c (h + h + k) : ZMod p)) +
    (X ^ h + C (s : ZMod p)) * poly h fun k => (c (h + h + (h + k)) : ZMod p)), ?_⟩
  simp only [C_neg, C_mul, C_sub, pow_add]
  ring

/-- The digits of a result before its reduction lie below the base. -/
structure Fits (p h s t base : ℕ) : Prop where
  pos : 0 < h
  t_le : t ≤ p
  st_le : s * t ≤ p
  t_le_sq : t ≤ s * s
  bound : (h + h + (h + h)) * p ^ 2 * (1 + s + s * s + p + p) ≤ base

omit [Fact p.Prime] in
theorem Fits.small (hfit : Fits p h s t base) : (h + h + (h + h)) * p ^ 2 ≤ base :=
  (Nat.le_mul_of_pos_right _ (by omega)).trans hfit.bound

omit [Fact p.Prime] in
theorem Fits.sq_le (hfit : Fits p h s t base) : p * p ≤ base := by
  rw [← sq]
  exact (Nat.le_mul_of_pos_left _ (by have := hfit.pos; omega)).trans hfit.small

theorem Fits.two_p_le (hfit : Fits p h s t base) : p + p ≤ base := by
  rw [← two_mul]
  exact (Nat.mul_le_mul_right p (Fact.out : p.Prime).two_le).trans hfit.sq_le

theorem Fits.p_le (hfit : Fits p h s t base) : p ≤ base :=
  (Nat.le_add_left p p).trans hfit.two_p_le

variable (hfit : Fits p h s t base)
  (hm : modulus (ZMod p) m = X ^ (h + h) - C (s : ZMod p) * X ^ h + C (t : ZMod p))

include hfit hm

/-- The product of packed elements is the packed product. -/
theorem mulWords_pack (a b : ExtField (ZMod p) (h + h)) :
    mulWords p h s t base (pack base a) (pack base b) = pack base (mulWith m a b) := by
  have hp := (Fact.out : p.Prime).pos
  generalize hproduct : ((∑ i ∈ Finset.range (h + h), C (digits a i) * X ^ i) *
    ∑ j ∈ Finset.range (h + h), C (digits b j) * X ^ j : ℕ[X]) = product
  have hcoeff : ∀ k < h + h + (h + h), product.coeff k < (h + h + (h + h)) * p ^ 2 :=
    fun k hk => hproduct ▸ coeff_product_lt hp (digits_lt a) (digits_lt b) hk
  have hmap : product.map (Nat.castRingHom (ZMod p)) = a.toPoly * b.toPoly := by
    rw [← hproduct, Polynomial.map_mul, map_digits, map_digits]
  have hpoly : poly (h + h + (h + h)) (fun k => (product.coeff k : ZMod p)) =
      a.toPoly * b.toPoly := by
    ext k
    rw [coeff_poly]
    split_ifs with hk
    · rw [← hmap, coeff_map]
      rfl
    · rw [← poly_convolve, coeff_poly, if_neg (by omega)]
  have hcast : mulWith m a b = ⟨fun i => (resultDigits p h s t product.coeff i : ZMod p)⟩ := by
    apply embed_injective m
    have hdvd := dvd_sub_resultDigits (h := h) hfit.t_le hfit.st_le hfit.t_le_sq product.coeff
    rw [hpoly, ← hm] at hdvd
    have htoPoly : ExtField.toPoly
        ⟨fun i : Fin (h + h) => (resultDigits p h s t product.coeff i : ZMod p)⟩ =
          poly (h + h) fun k => (resultDigits p h s t product.coeff k : ZMod p) := by
      rw [ExtField.toPoly_eq_sum, poly, Finset.sum_range]
    have hlength : 0 < h + h := Nat.add_pos_left hfit.pos h
    rw [embed_mulWith hlength, embed, embed, embed, ← map_mul, htoPoly]
    exact (AdjoinRoot.mk_eq_mk.mpr hdvd).symm
  rw [mulWords_number (fun k hk => (hcoeff k hk).trans_le hfit.small)
    (hproduct ▸ number_mul (digits a) (digits b))]
  exact reduce_eq_pack (fun k hk => resultDigits_lt hcoeff hfit.bound hk)
    fun i => congrFun (congrArg ExtField.c hcast) i

end Products

/-- The argument is evaluated before it is passed on. -/
def force {α : Type*} (n : ℕ) (f : ℕ → α) : α :=
  match n with
  | 0 => f 0
  | k + 1 => f (k + 1)

theorem force_eq {α : Type*} (n : ℕ) (f : ℕ → α) : force n f = f n := by cases n <;> rfl

/-- Square and multiply over the lowest bits of an exponent. -/
def powLoop (mul : ℕ → ℕ → ℕ) (x exponent : ℕ) : ℕ → ℕ → ℕ
  | 0, acc => acc
  | bits + 1, acc => force acc fun acc => powLoop mul x exponent bits
      (if exponent.testBit bits then mul (mul acc acc) x else mul acc acc)

section Powers

variable {p h s t base : ℕ} [Fact p.Prime] {m : Fin (h + h) → ℤ} (hfit : Fits p h s t base)
  (hm : modulus (ZMod p) m = X ^ (h + h) - C (s : ZMod p) * X ^ h + C (t : ZMod p))

include hfit hm

theorem powLoop_pack (a : ExtField (ZMod p) (h + h)) (exponent bits : ℕ)
    (acc : ExtField (ZMod p) (h + h)) :
    ∃ v, powLoop (mulWords p h s t base) (pack base a) exponent bits (pack base acc) =
        pack base v ∧
      embed m v = embed m acc ^ 2 ^ bits * embed m a ^ (exponent % 2 ^ bits) := by
  have hlength : 0 < h + h := Nat.add_pos_left hfit.pos h
  induction bits generalizing acc with
  | zero => exact ⟨acc, rfl, by rw [pow_zero, pow_one, Nat.mod_one, pow_zero, mul_one]⟩
  | succ bits ih =>
    rw [powLoop, force_eq, Nat.mod_pow_succ, ← Nat.toNat_testBit, pow_add (embed m a), pow_mul]
    cases exponent.testBit bits with
    | false =>
      rw [if_neg Bool.false_ne_true, mulWords_pack hfit hm]
      obtain ⟨v, hv, hpow⟩ := ih (mulWith m acc acc)
      refine ⟨v, hv, ?_⟩
      rw [hpow, embed_mulWith hlength, Bool.toNat_false]
      ring
    | true =>
      rw [if_pos rfl, mulWords_pack hfit hm, mulWords_pack hfit hm]
      obtain ⟨v, hv, hpow⟩ := ih (mulWith m (mulWith m acc acc) a)
      refine ⟨v, hv, ?_⟩
      rw [hpow, embed_mulWith hlength, embed_mulWith hlength, Bool.toNat_true]
      ring

end Powers

/-- A number with the arithmetic of the elements it packs. -/
structure Packed (p h s t base : ℕ) where
  word : ℕ
  deriving DecidableEq

namespace Packed

variable {p h s t base : ℕ}

instance : Zero (Packed p h s t base) := ⟨⟨0⟩⟩

instance : One (Packed p h s t base) := ⟨⟨1⟩⟩

instance : Add (Packed p h s t base) := ⟨fun x y => ⟨addWords p base (h + h) x.word y.word⟩⟩

instance : Sub (Packed p h s t base) := ⟨fun x y => ⟨subWords p base (h + h) x.word y.word⟩⟩

instance : Mul (Packed p h s t base) := ⟨fun x y => ⟨mulWords p h s t base x.word y.word⟩⟩

section Field

variable [Fact p.Prime] {m : Fin (h + h) → ℤ}

def ofField (v : ExtField (ZMod p) (h + h)) : Packed p h s t base := ⟨pack base v⟩

@[simp] theorem ofField_zero : (ofField 0 : Packed p h s t base) = 0 := by
  refine congrArg mk (?_ : number base (h + h) (digits 0) = 0)
  simp only [number, digits_zero, zero_mul, Finset.sum_const_zero]

theorem ofField_one (hh : 0 < h) : (ofField 1 : Packed p h s t base) = 1 := by
  refine congrArg mk (?_ : number base (h + h) (digits 1) = 1)
  have hdigits : number base (h + h) (digits (1 : ExtField (ZMod p) (h + h))) =
      ∑ k ∈ Finset.range (h + h), if k = 0 then 1 else 0 := by
    refine Finset.sum_congr rfl fun k hk => ?_
    rw [digits_one (Finset.mem_range.mp hk), ite_mul, one_mul, zero_mul]
    split_ifs with hzero
    · rw [hzero, pow_zero]
    · rfl
  rw [hdigits, Finset.sum_ite_eq', if_pos (Finset.mem_range.mpr (Nat.add_pos_left hh h))]

variable (hfit : Fits p h s t base)

include hfit

theorem ofField_injective : Function.Injective (ofField : _ → Packed p h s t base) :=
  fun _ _ heq => pack_injective hfit.p_le (congrArg word heq)

theorem ofField_add (a b : ExtField (ZMod p) (h + h)) :
    (ofField (a + b) : Packed p h s t base) = ofField a + ofField b :=
  congrArg mk (addWords_pack hfit.two_p_le a b).symm

theorem ofField_sub (a b : ExtField (ZMod p) (h + h)) :
    (ofField (a - b) : Packed p h s t base) = ofField a - ofField b :=
  congrArg mk (subWords_pack hfit.sq_le a b).symm

theorem ofField_mulWith
    (hm : modulus (ZMod p) m = X ^ (h + h) - C (s : ZMod p) * X ^ h + C (t : ZMod p))
    (a b : ExtField (ZMod p) (h + h)) :
    (ofField (mulWith m a b) : Packed p h s t base) = ofField a * ofField b :=
  congrArg mk (mulWords_pack hfit hm a b).symm

/-- The power, as square and multiply over so many bits. -/
def pow (x : Packed p h s t base) (exponent bits : ℕ) : Packed p h s t base :=
  ⟨powLoop (mulWords p h s t base) x.word exponent bits 1⟩

theorem ofField_powBeBytes
    (hm : modulus (ZMod p) m = X ^ (h + h) - C (s : ZMod p) * X ^ h + C (t : ZMod p))
    (a : ExtField (ZMod p) (h + h)) {bytes : List UInt8} {bits : ℕ}
    (hbits : ofBigEndian bytes < 2 ^ bits) :
    (ofField (powBeBytes m a bytes) : Packed p h s t base) =
      pow (ofField a) (ofBigEndian bytes) bits := by
  have hlength : 0 < h + h := Nat.add_pos_left hfit.pos h
  obtain ⟨v, hv, hpow⟩ := powLoop_pack hfit hm a (ofBigEndian bytes) bits 1
  have hone : pack base (1 : ExtField (ZMod p) (h + h)) = 1 :=
    congrArg word (ofField_one hfit.pos : ofField 1 = (1 : Packed p h s t base))
  rw [hone] at hv
  rw [embed_one hlength, one_pow, one_mul, Nat.mod_eq_of_lt hbits,
    ← embed_powBeBytes hlength] at hpow
  rw [pow, ofField, ← embed_injective m hpow]
  exact congrArg mk hv.symm

end Field

end Packed

end PackedFields
