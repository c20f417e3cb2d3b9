import LedgerLens.ExtensionFields

/-!
# Inverses in the extension fields

`invert_with` of `contracts/zk_verifier/src/pairing.rs`: Euclid's algorithm with a division that is
exact in its leading coefficient only. The relations of the algorithm hold for any quotient, and the
degrees fall for this one.
-/
namespace ExtensionFields

open Polynomial

variable {F : Type*} [Field F] [DecidableEq F] {N : ℕ}

/-- `-1` for an array of zeros. -/
def degOf : ℕ → (ℕ → F) → ℤ
  | 0, _ => -1
  | n + 1, c => if c n = 0 then degOf n c else n

structure Division (F : Type*) where
  temp : ℕ → F
  o : ℕ → F

def divideStep (degb : ℕ) (bLeadInv : F) (s : Division F) (ii : ℕ) : Division F :=
  let o := addAt s.o ii (s.temp (degb + ii) * bLeadInv)
  { temp := (List.range (degb + 1)).foldl (fun temp ci => subAt temp (ci + ii) (o ci)) s.temp
    o := o }

def polyRoundedDiv (size : ℕ) (high low : ℕ → F) : ℕ → F :=
  let dega := degOf size high
  let degb := degOf size low
  if degb ≤ dega ∧ 0 ≤ degb then
    let divided := (List.range ((dega - degb).toNat + 1)).reverse.foldl
      (divideStep degb.toNat (low degb.toNat)⁻¹) ⟨high, fun _ => 0⟩
    fun i => if (i : ℤ) ≤ max (degOf size divided.o) 0 then divided.o i else 0
  else fun _ => 0

/-- The products whose index lies in the arrays are taken away. -/
def subProduct (d : ℕ) (acc a q : ℕ → F) : ℕ → F :=
  (List.range (d + 1)).foldl (fun acc i =>
    (List.range (d - i + 1)).foldl (fun acc j => subAt acc (i + j) (a i * q j)) acc) acc

structure Euclid (F : Type*) where
  lm : ℕ → F
  low : ℕ → F
  hm : ℕ → F
  high : ℕ → F

def euclidStep (d : ℕ) (s : Euclid F) : Euclid F :=
  let q := polyRoundedDiv (d + 1) s.high s.low
  { lm := subProduct d s.hm s.lm q
    low := subProduct d s.high s.low q
    hm := s.lm
    high := s.low }

def euclidLoop (d : ℕ) : ℕ → Euclid F → Euclid F
  | 0, s => s
  | passes + 1, s =>
    if 0 < degOf (d + 1) s.low then euclidLoop d passes (euclidStep d s) else s

def euclidStart (modulusCoeffs : Fin N → ℤ) (a : ExtField F N) : Euclid F where
  lm k := if k = 0 then 1 else 0
  low := a.pad
  hm _ := 0
  high k := if h : k < N then (modulusCoeffs ⟨k, h⟩ : F) else if k = N then 1 else 0

/-- Four times the length is more passes than the loop needs. -/
def invertWith (modulusCoeffs : Fin N → ℤ) (a : ExtField F N) : ExtField F N :=
  let final := euclidLoop N (4 * N) (euclidStart modulusCoeffs a)
  { c := fun i => final.lm i * (final.low 0)⁻¹ }

section Degrees

variable {n d : ℕ} {c : ℕ → F}

omit [DecidableEq F] in
theorem natDegree_poly_le (d : ℕ) (c : ℕ → F) : (poly (d + 1) c).natDegree ≤ d :=
  natDegree_le_of_degree_le (Order.le_of_lt_succ (degree_poly_lt (d + 1) c))

theorem degOf_eq_neg_one (h : degOf n c < 0) : poly n c = 0 := by
  induction n with
  | zero => rfl
  | succ n ih =>
    rw [degOf] at h
    split_ifs at h with hzero
    · rw [poly_succ, ih h, hzero, C_0, zero_mul, add_zero]
    · omega

theorem degOf_eq (h : 0 ≤ degOf n c) : ∃ k < n, degOf n c = k ∧ c k ≠ 0 ∧
    (poly n c).natDegree = k := by
  induction n with
  | zero => exact absurd h (not_le.mpr (neg_one_lt_zero))
  | succ n ih =>
    rw [degOf] at h ⊢
    split_ifs at h ⊢ with hzero
    · obtain ⟨k, hk, hdeg, hne, hdegree⟩ := ih h
      refine ⟨k, by omega, hdeg, hne, ?_⟩
      rw [poly_succ, hzero, C_0, zero_mul, add_zero, hdegree]
    · refine ⟨n, by omega, rfl, hzero, ?_⟩
      refine natDegree_eq_of_le_of_coeff_ne_zero (natDegree_poly_le n c) ?_
      rwa [coeff_poly, if_pos (Nat.lt_succ_self n)]

theorem natDegree_poly_pos_iff : 0 < (poly n c).natDegree ↔ 0 < degOf n c := by
  rcases lt_or_ge (degOf n c) 0 with h | h
  · rw [degOf_eq_neg_one h, natDegree_zero]
    exact iff_of_false (lt_irrefl 0) (by omega)
  · obtain ⟨k, -, hdeg, -, hdegree⟩ := degOf_eq h
    rw [hdeg, hdegree]
    omega

theorem le_degOf {k : ℕ} (hk : k < n) (h : c k ≠ 0) : (k : ℤ) ≤ degOf n c := by
  induction n with
  | zero => omega
  | succ n ih =>
    rw [degOf]
    split_ifs with hzero
    · have hne : k ≠ n := by
        rintro rfl
        exact h hzero
      exact ih (by omega)
    · omega

end Degrees

section Division

variable {size k : ℕ} {high low : ℕ → F}

omit [DecidableEq F] in
theorem divide_o (degb : ℕ) (inv : F) (s : Division F) (n : ℕ) (hk : n ≤ k) :
    ((List.range n).reverse.foldl (divideStep degb inv) s).o k = s.o k := by
  induction n generalizing s with
  | zero => rfl
  | succ n ih =>
    rw [foldl_downwards, ih _ (by omega), divideStep]
    exact Function.update_of_ne (by omega) _ _

theorem polyRoundedDiv_of_lt
    (h : (poly size high).natDegree < (poly size low).natDegree) :
    poly size (polyRoundedDiv size high low) = 0 := by
  have hlow := natDegree_poly_pos_iff.mp (Nat.zero_lt_of_lt h)
  obtain ⟨degb, -, hdegb, -, hdegree⟩ := degOf_eq hlow.le
  have hless : degOf size high < degOf size low := by
    rcases lt_or_ge (degOf size high) 0 with hneg | hpos
    · omega
    · obtain ⟨dega, -, hdega, -, hdegree'⟩ := degOf_eq hpos
      omega
  rw [polyRoundedDiv, if_neg (fun hle => absurd hle.1 (not_le.mpr hless))]
  ext k
  rw [coeff_poly, ite_self, coeff_zero]

/-- The quotient has its leading coefficient right. -/
theorem polyRoundedDiv_of_le (hlow : 0 < (poly size low).natDegree)
    (h : (poly size low).natDegree ≤ (poly size high).natDegree) :
    (∀ i, (poly size high).natDegree - (poly size low).natDegree < i →
      polyRoundedDiv size high low i = 0) ∧
    low (poly size low).natDegree * polyRoundedDiv size high low
      ((poly size high).natDegree - (poly size low).natDegree) =
        high (poly size high).natDegree := by
  obtain ⟨degb, hb, hdegb, hbne, hbdegree⟩ := degOf_eq (natDegree_poly_pos_iff.mp hlow).le
  obtain ⟨dega, ha, hdega, hane, hadegree⟩ :=
    degOf_eq (natDegree_poly_pos_iff.mp (hlow.trans_le h)).le
  rw [hbdegree, hadegree] at h ⊢
  have hcond : degOf size low ≤ degOf size high ∧ 0 ≤ degOf size low := by omega
  have hcount : (degOf size high - degOf size low).toNat + 1 = dega - degb + 1 := by omega
  have hnat : (degOf size low).toNat = degb := by omega
  rw [polyRoundedDiv, if_pos hcond, hcount, hnat, foldl_downwards]
  generalize hstep : divideStep degb (low degb)⁻¹ ⟨high, fun _ => 0⟩ (dega - degb) = first
  have hfirst (i : ℕ) : first.o i =
      if i = dega - degb then high dega * (low degb)⁻¹ else 0 := by
    rw [← hstep, divideStep, show degb + (dega - degb) = dega by omega]
    by_cases hi : i = dega - degb
    · subst hi
      rw [if_pos rfl]
      exact (Function.update_self _ _ _).trans (zero_add _)
    · rw [if_neg hi]
      exact Function.update_of_ne hi _ _
  generalize hdivided : (List.range (dega - degb)).reverse.foldl
    (divideStep degb (low degb)⁻¹) first = divided
  have hlast (i : ℕ) (hi : dega - degb ≤ i) : divided.o i = first.o i := by
    rw [← hdivided, divide_o _ _ _ _ hi]
  constructor
  · intro i hi
    rw [hlast i hi.le, hfirst i, if_neg (show i ≠ dega - degb from hi.ne'), ite_self]
  · have htop : divided.o (dega - degb) = high dega * (low degb)⁻¹ := by
      rw [hlast _ le_rfl, hfirst, if_pos rfl]
    have hne : divided.o (dega - degb) ≠ 0 := by
      rw [htop]
      exact mul_ne_zero hane (inv_ne_zero hbne)
    have hdeg := le_degOf (show dega - degb < size by omega) hne
    rw [if_pos (le_max_of_le_left hdeg), htop, mul_comm, mul_assoc, inv_mul_cancel₀ hbne, mul_one]

end Division

section Round

variable {d : ℕ} {acc a q : ℕ → F}

theorem poly_subProduct
    (h : (poly (d + 1) a).natDegree + (poly (d + 1) q).natDegree ≤ d) :
    poly (d + 1) (subProduct d acc a q) =
      poly (d + 1) acc - poly (d + 1) a * poly (d + 1) q := by
  have hrow (buf : ℕ → F) (i : ℕ) (hi : i ≤ d) : poly (d + 1) ((List.range (d - i + 1)).foldl
      (fun acc j => subAt acc (i + j) (a i * q j)) buf) =
        poly (d + 1) buf - C (a i) * X ^ i * poly (d + 1) q := by
    have hinside : C (a i) * X ^ i * poly (d + 1) q =
        ∑ j ∈ Finset.range (d - i + 1), C (a i * q j) * X ^ (i + j) := by
      rw [poly, Finset.mul_sum]
      refine (Finset.sum_subset (Finset.range_mono (by omega)) fun j hj hout => ?_).symm.trans
        (Finset.sum_congr rfl fun j _ => ?_)
      · rw [Finset.mem_range] at hj hout
        have hzero : a i = 0 ∨ q j = 0 := by
          by_contra hne
          rw [not_or] at hne
          have hi' : i ≤ (poly (d + 1) a).natDegree := by
            by_contra hlt
            exact hne.1 (coeff_of_natDegree_lt (by omega) (not_le.mp hlt))
          have hj' : j ≤ (poly (d + 1) q).natDegree := by
            by_contra hlt
            exact hne.2 (coeff_of_natDegree_lt hj (not_le.mp hlt))
          omega
        rcases hzero with hzero | hzero <;> simp [hzero]
      · rw [C_mul, pow_add]
        ring
    have hentry (buf : ℕ → F) (j : ℕ) (hj : j < d - i + 1) :
        poly (d + 1) (subAt buf (i + j) (a i * q j)) =
          poly (d + 1) buf + C (-(a i * q j)) * X ^ (i + j) := by
      rw [subAt_eq_addAt, poly_addAt (by omega)]
    rw [poly_foldl_range hentry, hinside, sub_eq_add_neg, ← Finset.sum_neg_distrib]
    refine congrArg₂ _ rfl (Finset.sum_congr rfl fun j _ => ?_)
    rw [C_neg, neg_mul]
  rw [subProduct, poly_foldl_range fun buf i hi =>
    (hrow buf i (by omega)).trans (sub_eq_add_neg _ _),
    Finset.sum_neg_distrib, ← Finset.sum_mul, ← sub_eq_add_neg]
  rfl

theorem natDegree_polyRoundedDiv_le {high low : ℕ → F} (hlow : 0 < (poly (d + 1) low).natDegree)
    (h : (poly (d + 1) low).natDegree ≤ (poly (d + 1) high).natDegree) :
    (poly (d + 1) (polyRoundedDiv (d + 1) high low)).natDegree ≤
      (poly (d + 1) high).natDegree - (poly (d + 1) low).natDegree := by
  rw [natDegree_le_iff_coeff_eq_zero]
  intro i hi
  rw [coeff_poly, (polyRoundedDiv_of_le hlow h).1 i hi, ite_self]

/-- The leading coefficient of the dividend cancels. -/
theorem natDegree_sub_mul_lt {high low : ℕ → F} (hlow : 0 < (poly (d + 1) low).natDegree)
    (h : (poly (d + 1) low).natDegree ≤ (poly (d + 1) high).natDegree) :
    (poly (d + 1) high - poly (d + 1) low *
      poly (d + 1) (polyRoundedDiv (d + 1) high low)).natDegree <
        (poly (d + 1) high).natDegree := by
  obtain ⟨-, hlead⟩ := polyRoundedDiv_of_le hlow h
  have hq := natDegree_polyRoundedDiv_le hlow h
  have hhigh : (poly (d + 1) high).natDegree < d + 1 :=
    Nat.lt_succ_of_le (natDegree_poly_le d high)
  rw [← Nat.le_sub_one_iff_lt (hlow.trans_le h), natDegree_le_iff_coeff_eq_zero]
  intro i hi
  rw [coeff_sub]
  rcases (show (poly (d + 1) high).natDegree ≤ i by omega).eq_or_lt with rfl | hgt
  · have htop := coeff_mul_add_eq_of_natDegree_le (le_refl (poly (d + 1) low).natDegree) hq
    rw [Nat.add_sub_cancel' h] at htop
    rw [htop, coeff_poly, coeff_poly, coeff_poly, if_pos hhigh, if_pos (by omega),
      if_pos (by omega), hlead, sub_self]
  · rw [coeff_eq_zero_of_natDegree_lt hgt, zero_sub, neg_eq_zero]
    exact coeff_eq_zero_of_natDegree_lt (natDegree_mul_le.trans_lt (by omega))

structure Relations (A M : F[X]) (d : ℕ) (s : Euclid F) : Prop where
  lm : M ∣ poly (d + 1) s.lm * A - poly (d + 1) s.low
  hm : M ∣ poly (d + 1) s.hm * A - poly (d + 1) s.high
  det : poly (d + 1) s.lm * poly (d + 1) s.high - poly (d + 1) s.hm * poly (d + 1) s.low = M ∨
    poly (d + 1) s.lm * poly (d + 1) s.high - poly (d + 1) s.hm * poly (d + 1) s.low = -M
  lm_degree : (poly (d + 1) s.lm).natDegree + (poly (d + 1) s.high).natDegree ≤ d
  hm_degree : (poly (d + 1) s.hm).natDegree + (poly (d + 1) s.low).natDegree ≤ d
  high_pos : 0 < (poly (d + 1) s.high).natDegree

/-- A round falls by it, also one that only exchanges the arrays. -/
noncomputable def roundsLeft (d : ℕ) (s : Euclid F) : ℕ :=
  2 * ((poly (d + 1) s.high).natDegree + (poly (d + 1) s.low).natDegree) +
    if (poly (d + 1) s.high).natDegree < (poly (d + 1) s.low).natDegree then 1 else 0

omit [DecidableEq F] in
/-- A round takes multiples of the second row of the scheme from the first, and exchanges them. -/
theorem Relations.of_row {A M Q : F[X]} {s s' : Euclid F} (h : Relations A M d s)
    (hlm : poly (d + 1) s'.lm = poly (d + 1) s.hm - poly (d + 1) s.lm * Q)
    (hlow : poly (d + 1) s'.low = poly (d + 1) s.high - poly (d + 1) s.low * Q)
    (hhm : s'.hm = s.lm) (hhigh : s'.high = s.low)
    (hlm_degree : (poly (d + 1) s'.lm).natDegree + (poly (d + 1) s.low).natDegree ≤ d)
    (hhm_degree : (poly (d + 1) s.lm).natDegree + (poly (d + 1) s'.low).natDegree ≤ d)
    (hpos : 0 < (poly (d + 1) s.low).natDegree) : Relations A M d s' := by
  refine ⟨?_, hhm ▸ hhigh ▸ h.lm, ?_, hhigh ▸ hlm_degree, hhm ▸ hhm_degree, hhigh ▸ hpos⟩
  · have heq : poly (d + 1) s'.lm * A - poly (d + 1) s'.low =
        (poly (d + 1) s.hm * A - poly (d + 1) s.high) -
          (poly (d + 1) s.lm * A - poly (d + 1) s.low) * Q := by
      rw [hlm, hlow]
      ring
    rw [heq]
    exact dvd_sub h.hm (h.lm.mul_right Q)
  · have heq :
        poly (d + 1) s'.lm * poly (d + 1) s'.high - poly (d + 1) s'.hm * poly (d + 1) s'.low =
        -(poly (d + 1) s.lm * poly (d + 1) s.high - poly (d + 1) s.hm * poly (d + 1) s.low) := by
      rw [hlm, hlow, hhm, hhigh]
      ring
    rw [heq]
    rcases h.det with hdet | hdet
    · exact .inr (by rw [hdet])
    · exact .inl (by rw [hdet, neg_neg])

theorem Relations.step {A M : F[X]} {s : Euclid F} (h : Relations A M d s)
    (hpos : 0 < (poly (d + 1) s.low).natDegree) :
    Relations A M d (euclidStep d s) ∧ roundsLeft d (euclidStep d s) < roundsLeft d s := by
  have hlm_degree := h.lm_degree
  have hhm_degree := h.hm_degree
  rcases Nat.lt_or_ge (poly (d + 1) s.high).natDegree (poly (d + 1) s.low).natDegree with hlt | hge
  · have hzero := polyRoundedDiv_of_lt hlt
    have hq : (poly (d + 1) (polyRoundedDiv (d + 1) s.high s.low)).natDegree = 0 := by
      rw [hzero, natDegree_zero]
    have hlm : poly (d + 1) (euclidStep d s).lm = poly (d + 1) s.hm - poly (d + 1) s.lm * 0 := by
      rw [← hzero]
      exact poly_subProduct (by omega)
    have hlow : poly (d + 1) (euclidStep d s).low =
        poly (d + 1) s.high - poly (d + 1) s.low * 0 := by
      rw [← hzero]
      exact poly_subProduct (by omega)
    have hlm' : poly (d + 1) (euclidStep d s).lm = poly (d + 1) s.hm := by
      rw [hlm, mul_zero, sub_zero]
    have hlow' : poly (d + 1) (euclidStep d s).low = poly (d + 1) s.high := by
      rw [hlow, mul_zero, sub_zero]
    have hhigh : (euclidStep d s).high = s.low := rfl
    refine ⟨h.of_row hlm hlow rfl rfl (hlm'.symm ▸ hhm_degree) (hlow'.symm ▸ hlm_degree) hpos, ?_⟩
    rw [roundsLeft, roundsLeft, hlow', hhigh, if_pos hlt, if_neg (by omega)]
    omega
  · have hq := natDegree_polyRoundedDiv_le hpos hge
    have hless := natDegree_sub_mul_lt hpos hge
    have hlm : poly (d + 1) (euclidStep d s).lm = poly (d + 1) s.hm -
        poly (d + 1) s.lm * poly (d + 1) (polyRoundedDiv (d + 1) s.high s.low) :=
      poly_subProduct (by omega)
    have hlow : poly (d + 1) (euclidStep d s).low = poly (d + 1) s.high -
        poly (d + 1) s.low * poly (d + 1) (polyRoundedDiv (d + 1) s.high s.low) :=
      poly_subProduct (by omega)
    have hhigh : (euclidStep d s).high = s.low := rfl
    have hlm_bound : (poly (d + 1) (euclidStep d s).lm).natDegree ≤
        max (poly (d + 1) s.hm).natDegree ((poly (d + 1) s.lm).natDegree +
          (poly (d + 1) (polyRoundedDiv (d + 1) s.high s.low)).natDegree) := by
      rw [hlm]
      exact (natDegree_sub_le _ _).trans (max_le_max le_rfl natDegree_mul_le)
    rw [← hlow] at hless
    refine ⟨h.of_row hlm hlow rfl rfl (by omega) (by omega) hpos, ?_⟩
    rw [roundsLeft, roundsLeft, hhigh, if_neg (not_lt.mpr hge)]
    split_ifs <;> omega

theorem Relations.loop {A M : F[X]} {s : Euclid F} (h : Relations A M d s) {passes : ℕ}
    (hpasses : roundsLeft d s ≤ passes) : Relations A M d (euclidLoop d passes s) ∧
      (poly (d + 1) (euclidLoop d passes s).low).natDegree = 0 := by
  induction passes generalizing s with
  | zero =>
    have := h.high_pos
    rw [roundsLeft] at hpasses
    omega
  | succ passes ih =>
    rw [euclidLoop]
    split_ifs with hlow
    · obtain ⟨hnext, hless⟩ := h.step (natDegree_poly_pos_iff.mpr hlow)
      exact ih hnext (by omega)
    · exact ⟨h, Nat.eq_zero_of_not_pos fun hpos => hlow (natDegree_poly_pos_iff.mp hpos)⟩

end Round

section Inverse

variable {m : Fin N → ℤ} (a : ExtField F N)

omit [DecidableEq F] in
theorem poly_low_start : poly (N + 1) (euclidStart m a).low = a.toPoly := by
  have htop : a.pad N = 0 := dif_neg (lt_irrefl N)
  rw [poly_succ, show (euclidStart m a).low = a.pad from rfl, htop, C_0, zero_mul, add_zero]
  rfl

omit [DecidableEq F] in
theorem poly_high_start : poly (N + 1) (euclidStart m a).high = modulus F m := by
  have htop : (euclidStart m a).high N = 1 := by
    rw [euclidStart]
    simp only [lt_irrefl, dite_false, if_true]
  rw [poly_succ, htop, C_1, one_mul, modulus, add_comm, poly, Finset.sum_range]
  refine congrArg₂ _ rfl (Finset.sum_congr rfl fun i _ => ?_)
  rw [euclidStart]
  simp only [i.isLt, dite_true]

omit [DecidableEq F] in
theorem natDegree_toPoly_lt (hN : 0 < N) : a.toPoly.natDegree < N := by
  obtain ⟨k, rfl⟩ := Nat.exists_eq_add_of_le' hN
  exact Nat.lt_succ_of_le (natDegree_poly_le k a.pad)

omit [DecidableEq F] in
theorem natDegree_modulus (m : Fin N → ℤ) : (modulus F m).natDegree = N :=
  natDegree_eq_of_degree_eq_some (degree_modulus m)

omit [DecidableEq F] in
theorem relations_start (hN : 0 < N) :
    Relations a.toPoly (modulus F m) N (euclidStart m a) := by
  have hone : poly (N + 1) (euclidStart m a).lm = 1 := by
    ext k
    rw [coeff_poly, coeff_one, euclidStart]
    simp only
    split_ifs <;> first | rfl | omega
  have hzero : poly (N + 1) (euclidStart m a).hm = 0 := by
    ext k
    rw [coeff_poly, coeff_zero, euclidStart, ite_self]
  have hlow := natDegree_toPoly_lt a hN
  refine ⟨?_, ?_, .inl ?_, ?_, ?_, ?_⟩
  · rw [hone, poly_low_start, one_mul, sub_self]
    exact dvd_zero _
  · rw [hzero, poly_high_start, zero_mul, zero_sub]
    exact (dvd_refl _).neg_right
  · rw [hone, hzero, poly_high_start, one_mul, zero_mul, sub_zero]
  · rw [hone, poly_high_start, natDegree_one, natDegree_modulus, zero_add]
  · rw [hzero, poly_low_start, natDegree_zero, zero_add]
    exact hlow.le
  · rwa [poly_high_start, natDegree_modulus]

omit [DecidableEq F] in
theorem roundsLeft_start (hN : 0 < N) : roundsLeft N (euclidStart m a) ≤ 4 * N := by
  have hlow := natDegree_toPoly_lt a hN
  rw [roundsLeft, poly_low_start, poly_high_start, natDegree_modulus, if_neg (by omega)]
  omega

theorem embed_invertWith (hN : 0 < N) (h : IsUnit (embed m a)) :
    embed m (invertWith m a) * embed m a = 1 := by
  obtain ⟨hfinal, hconst⟩ := (relations_start (m := m) a hN).loop (roundsLeft_start a hN)
  generalize hs : euclidLoop N (4 * N) (euclidStart m a) = s at hfinal hconst
  have hlm_degree : (poly (N + 1) s.lm).natDegree < N := by
    have := hfinal.lm_degree
    have := hfinal.high_pos
    omega
  have hlm : poly (N + 1) s.lm = poly N s.lm := by
    rw [poly_succ, coeff_of_natDegree_lt (Nat.lt_succ_self N) hlm_degree, C_0, zero_mul, add_zero]
  have hlow : poly (N + 1) s.low = C (s.low 0) := by
    rw [eq_C_of_natDegree_eq_zero hconst, coeff_poly, if_pos (Nat.succ_pos N)]
  have hmul : AdjoinRoot.mk (modulus F m) (poly N s.lm) * embed m a =
      AdjoinRoot.mk (modulus F m) (C (s.low 0)) := by
    rw [← hlm, ← hlow, embed, ← map_mul]
    exact AdjoinRoot.mk_eq_mk.mpr hfinal.lm
  have hne : s.low 0 ≠ 0 := by
    intro hzero
    rw [hzero, C_0, map_zero, h.mul_left_eq_zero, AdjoinRoot.mk_eq_zero, ← hlm] at hmul
    have hcoefficient : poly (N + 1) s.lm = 0 := by
      refine eq_zero_of_dvd_of_natDegree_lt hmul ?_
      rwa [natDegree_modulus]
    have hdet := hfinal.det
    rw [hlow, hzero, hcoefficient, C_0, zero_mul, mul_zero, sub_zero] at hdet
    rcases hdet with hdet | hdet
    · exact (modulus_monic m).ne_zero hdet.symm
    · exact (modulus_monic m).ne_zero (neg_eq_zero.mp hdet.symm)
  have hresult : (invertWith m a).toPoly = poly N s.lm * C (s.low 0)⁻¹ := by
    rw [invertWith, hs, ExtField.toPoly_eq_sum, poly, Finset.sum_range, Finset.sum_mul]
    refine Finset.sum_congr rfl fun i _ => ?_
    rw [C_mul]
    ring
  calc embed m (invertWith m a) * embed m a
      = AdjoinRoot.mk (modulus F m) (C (s.low 0)⁻¹) *
          (AdjoinRoot.mk (modulus F m) (poly N s.lm) * embed m a) := by
        rw [embed, hresult, map_mul]
        ring
    _ = 1 := by
        rw [hmul, ← map_mul, ← C_mul, inv_mul_cancel₀ hne, C_1, map_one]

end Inverse

end ExtensionFields
