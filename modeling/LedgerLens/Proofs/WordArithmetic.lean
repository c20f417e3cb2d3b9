import LedgerLens.Proofs.ZkVerifierWords
import Mathlib.FieldTheory.Finite.Basic

/-!
# Exactness of the modular arithmetic

The 512-bit product of `mul_wide` against ordinary multiplication, and the modular
operations built on it against residues. The only plain `u64` and `u128` arithmetic of these
functions is in `mul_wide`; its checked form stops at an overflow or at an index past the
eight cells, as the contract does when it is built with overflow checks.
-/
namespace ZkVerifierWords.U256

def checkedMul (x y : ℕ) : Option ℕ := if x * y < 2 ^ 128 then some (x * y) else none

def checkedAdd (x y : ℕ) : Option ℕ := if x + y < 2 ^ 128 then some (x + y) else none

def mulCellChecked (ai : UInt64) (b : U256) (i : ℕ) (s : List ℕ × ℕ) (j : ℕ) :
    Option (List ℕ × ℕ) := do
  let cell ← s.1[i + j]?
  let product ← checkedMul ai.toNat (b.limbs.getD j 0).toNat
  let withCell ← checkedAdd product cell
  let prod ← checkedAdd withCell s.2
  return (s.1.set (i + j) (prod % 2 ^ 64), prod / 2 ^ 64)

def propagateChecked : ℕ → ℕ → List ℕ → ℕ → Option (List ℕ)
  | 0, _, acc, carry => if carry = 0 then some acc else none
  | fuel + 1, k, acc, carry =>
    if carry = 0 then some acc
    else do
      let cell ← acc[k]?
      let s ← checkedAdd cell carry
      propagateChecked fuel (k + 1) (acc.set k (s % 2 ^ 64)) (s / 2 ^ 64)

def mulRowChecked (a b : U256) (acc : List ℕ) (i : ℕ) : Option (List ℕ) :=
  let ai := a.limbs.getD i 0
  if ai = 0 then some acc
  else do
    let s ← [0, 1, 2, 3].foldlM (mulCellChecked ai b i) (acc, 0)
    propagateChecked (4 - i) (i + 4) s.1 s.2

def mulWideChecked (a b : U256) : Option (List UInt64) := do
  let acc ← [0, 1, 2, 3].foldlM (mulRowChecked a b) (List.replicate 8 0)
  return acc.map UInt64.ofNat

/-- The number that cells of 64 bits stand for, least significant first. -/
def cellsValue : List ℕ → ℕ
  | [] => 0
  | w :: ws => w + 2 ^ 64 * cellsValue ws

structure IsCells (acc : List ℕ) : Prop where
  length : acc.length = 8
  small : ∀ w ∈ acc, w < 2 ^ 64

theorem IsCells.getD_lt {acc : List ℕ} (h : IsCells acc) {k : ℕ} (hk : k < 8) :
    acc[k]? = some (acc.getD k 0) ∧ acc.getD k 0 < 2 ^ 64 := by
  have hlt : k < acc.length := h.length ▸ hk
  have hget : acc[k]? = some acc[k] := List.getElem?_eq_getElem hlt
  rw [List.getD_eq_getElem?_getD, hget, Option.getD_some]
  exact ⟨rfl, h.small _ (List.getElem_mem hlt)⟩

theorem IsCells.set {acc : List ℕ} (h : IsCells acc) (k v : ℕ) :
    IsCells (acc.set k (v % 2 ^ 64)) := by
  refine ⟨by rw [List.length_set, h.length], ?_⟩
  intro w hw
  rcases List.mem_or_eq_of_mem_set hw with hin | rfl
  · exact h.small w hin
  · exact Nat.mod_lt _ (by decide)

theorem cellsValue_set (acc : List ℕ) (k v : ℕ) (hk : k < acc.length) :
    cellsValue (acc.set k v) + acc.getD k 0 * 2 ^ (64 * k) =
      cellsValue acc + v * 2 ^ (64 * k) := by
  induction acc generalizing k with
  | nil => simp at hk
  | cons w ws ih =>
    cases k with
    | zero =>
      simp only [List.set_cons_zero, cellsValue, List.getD_cons_zero]
      ring
    | succ k =>
      have hset := ih k (by simpa using hk)
      have hpow : (2 : ℕ) ^ (64 * (k + 1)) = 2 ^ 64 * 2 ^ (64 * k) := by
        rw [← pow_add]
        congr 1
        ring
      simp only [List.set_cons_succ, cellsValue, List.getD_cons_succ, hpow]
      linarith [congrArg (fun z => 2 ^ 64 * z) hset]

theorem limbsValue_map {acc : List ℕ} (h : ∀ w ∈ acc, w < 2 ^ 64) :
    limbsValue (acc.map UInt64.ofNat) = cellsValue acc := by
  induction acc with
  | nil => rfl
  | cons w ws ih =>
    rw [List.map_cons, limbsValue, cellsValue, ih fun v hv => h v (List.mem_cons_of_mem w hv),
      UInt64.toNat_ofNat_of_lt' (h w List.mem_cons_self)]

/-- What an inner turn leaves: the cells and the carry above them hold `total`. -/
structure RowState (s : List ℕ × ℕ) (k total : ℕ) : Prop where
  cells : IsCells s.1
  carry : s.2 < 2 ^ 64
  total_eq : cellsValue s.1 + s.2 * 2 ^ (64 * k) = total

/-- The sum of a product, a cell and a carry is at most `2 ^ 128 - 1`. -/
theorem mulCell_spec (ai : UInt64) (b : U256) {i j total : ℕ} {s : List ℕ × ℕ}
    (h : RowState s (i + j) total) (hk : i + j < 8) :
    mulCellChecked ai b i s j = some (mulCell ai b i s j) ∧
      RowState (mulCell ai b i s j) (i + (j + 1))
        (total + ai.toNat * (b.limbs.getD j 0).toNat * 2 ^ (64 * (i + j))) := by
  obtain ⟨hget, hcell⟩ := h.cells.getD_lt hk
  have hcarry := h.carry
  have hproduct : ai.toNat * (b.limbs.getD j 0).toNat ≤ (2 ^ 64 - 1) * (2 ^ 64 - 1) :=
    Nat.mul_le_mul (Nat.le_sub_one_of_lt ai.toNat_lt)
      (Nat.le_sub_one_of_lt (b.limbs.getD j 0).toNat_lt)
  have hset := cellsValue_set s.1 (i + j)
    ((ai.toNat * (b.limbs.getD j 0).toNat + s.1.getD (i + j) 0 + s.2) % 2 ^ 64)
    (h.cells.length ▸ hk)
  have htotal := h.total_eq
  have hmod : (ai.toNat * (b.limbs.getD j 0).toNat + s.1.getD (i + j) 0 + s.2) % 2 ^ 128 =
      ai.toNat * (b.limbs.getD j 0).toNat + s.1.getD (i + j) 0 + s.2 :=
    Nat.mod_eq_of_lt (by omega)
  have hstep : mulCell ai b i s j = (s.1.set (i + j)
      ((ai.toNat * (b.limbs.getD j 0).toNat + s.1.getD (i + j) 0 + s.2) % 2 ^ 64),
      (ai.toNat * (b.limbs.getD j 0).toNat + s.1.getD (i + j) 0 + s.2) / 2 ^ 64) := by
    rw [mulCell, hmod]
  rw [hstep]
  generalize hp : ai.toNat * (b.limbs.getD j 0).toNat = product at *
  generalize s.1.getD (i + j) 0 = cell at *
  constructor
  · simp only [mulCellChecked, hget, hp, checkedMul, checkedAdd, Option.bind_eq_bind,
      Option.bind_some]
    rw [if_pos (by omega), Option.bind_some, if_pos (by omega), Option.bind_some,
      if_pos (by omega)]
    rfl
  · refine ⟨h.cells.set _ _, by omega, ?_⟩
    have hpow : (2 : ℕ) ^ (64 * (i + (j + 1))) = 2 ^ 64 * 2 ^ (64 * (i + j)) := by
      rw [← pow_add]
      congr 1
      ring
    have hdiv := Nat.div_add_mod (product + cell + s.2) (2 ^ 64)
    have hscaled := congrArg (fun z => z * 2 ^ (64 * (i + j))) hdiv
    simp only at hscaled ⊢
    rw [hpow]
    nlinarith only [hset, htotal, hscaled]

theorem limbsValue_take_succ (a : U256) {i : ℕ} (hi : i < 4) :
    limbsValue (a.limbs.take (i + 1)) =
      limbsValue (a.limbs.take i) + 2 ^ (64 * i) * (a.limbs.getD i 0).toNat := by
  have hlen : i < a.limbs.length := hi
  rw [List.take_succ_eq_append_getElem hlen, limbsValue_append, List.length_take,
    Nat.min_eq_left (by omega), List.getD_eq_getElem?_getD, List.getElem?_eq_getElem hlen]
  simp [limbsValue]

theorem mulCells_spec (ai : UInt64) (b : U256) {i : ℕ} (hi : i < 4) {acc : List ℕ}
    (hacc : IsCells acc) (n : ℕ) (hn : n ≤ 4) :
    (List.range n).foldlM (mulCellChecked ai b i) (acc, 0) =
        some ((List.range n).foldl (mulCell ai b i) (acc, 0)) ∧
      RowState ((List.range n).foldl (mulCell ai b i) (acc, 0)) (i + n)
        (cellsValue acc + ai.toNat * limbsValue (b.limbs.take n) * 2 ^ (64 * i)) := by
  induction n with
  | zero =>
    refine ⟨rfl, hacc, by simp, ?_⟩
    simp [limbsValue]
  | succ n ih =>
    obtain ⟨hchecked, hstate⟩ := ih (by omega)
    obtain ⟨hstep, hnext⟩ := mulCell_spec ai b hstate (by omega)
    rw [List.range_succ, List.foldlM_append, List.foldl_append, hchecked]
    refine ⟨by simpa using hstep, ?_⟩
    have htotal : cellsValue acc + ai.toNat * limbsValue (b.limbs.take (n + 1)) * 2 ^ (64 * i) =
        cellsValue acc + ai.toNat * limbsValue (b.limbs.take n) * 2 ^ (64 * i) +
          ai.toNat * (b.limbs.getD n 0).toNat * 2 ^ (64 * (i + n)) := by
      rw [limbsValue_take_succ b (by omega), Nat.mul_add 64 i n, pow_add]
      ring
    rw [htotal]
    exact hnext

/-- The carry runs out before the cells do, since the whole value has 512 bits. -/
theorem propagate_spec {acc : List ℕ} {carry k fuel : ℕ} (hacc : IsCells acc)
    (hcarry : carry < 2 ^ 64) (hfuel : fuel + k = 8)
    (hfit : cellsValue acc + carry * 2 ^ (64 * k) < 2 ^ (64 * 8)) :
    propagateChecked fuel k acc carry = some (propagate fuel k acc carry) ∧
      IsCells (propagate fuel k acc carry) ∧
      cellsValue (propagate fuel k acc carry) = cellsValue acc + carry * 2 ^ (64 * k) := by
  induction fuel generalizing acc carry k with
  | zero =>
    have hk : k = 8 := by omega
    subst hk
    have hzero : carry = 0 := by
      by_contra hne
      have hge := Nat.le_mul_of_pos_left (2 ^ (64 * 8)) (Nat.pos_of_ne_zero hne)
      exact absurd (hge.trans (Nat.le_add_left _ _)) (Nat.not_le.mpr hfit)
    rw [propagateChecked, propagate, if_pos hzero, hzero]
    exact ⟨rfl, hacc, by rw [Nat.zero_mul, Nat.add_zero]⟩
  | succ fuel ih =>
    rw [propagateChecked, propagate]
    by_cases hzero : carry = 0
    · rw [if_pos hzero, if_pos hzero, hzero]
      exact ⟨rfl, hacc, by rw [Nat.zero_mul, Nat.add_zero]⟩
    · obtain ⟨hget, hcell⟩ := hacc.getD_lt (show k < 8 by omega)
      have hset := cellsValue_set acc k ((acc.getD k 0 + carry) % 2 ^ 64)
        (by rw [hacc.length]; omega)
      have hmod : (acc.getD k 0 + carry) % 2 ^ 128 = acc.getD k 0 + carry :=
        Nat.mod_eq_of_lt (by omega)
      have hpow : (2 : ℕ) ^ (64 * (k + 1)) = 2 ^ 64 * 2 ^ (64 * k) := by
        rw [← pow_add]
        congr 1
        ring
      have hscaled := congrArg (fun z => z * 2 ^ (64 * k))
        (Nat.div_add_mod (acc.getD k 0 + carry) (2 ^ 64))
      have hvalue : cellsValue (acc.set k ((acc.getD k 0 + carry) % 2 ^ 64)) +
          (acc.getD k 0 + carry) / 2 ^ 64 * 2 ^ (64 * (k + 1)) =
            cellsValue acc + carry * 2 ^ (64 * k) := by
        rw [hpow]
        nlinarith only [hset, hscaled]
      obtain ⟨hchecked, hcells, htotal⟩ := ih (hacc.set k (acc.getD k 0 + carry))
        (by omega : (acc.getD k 0 + carry) / 2 ^ 64 < 2 ^ 64) (by omega : fuel + (k + 1) = 8)
        (by rw [hvalue]; exact hfit)
      rw [if_neg hzero, if_neg hzero, hmod, hget, Option.bind_eq_bind, Option.bind_some,
        checkedAdd, if_pos (by omega), Option.bind_some]
      exact ⟨hchecked, hcells, by rw [htotal, hvalue]⟩

theorem mulRow_spec {a b : U256} {acc : List ℕ} {i : ℕ} (hi : i < 4) (hacc : IsCells acc)
    (hvalue : cellsValue acc = limbsValue (a.limbs.take i) * b.toNat) :
    mulRowChecked a b acc i = some (mulRow a b acc i) ∧ IsCells (mulRow a b acc i) ∧
      cellsValue (mulRow a b acc i) = limbsValue (a.limbs.take (i + 1)) * b.toNat := by
  have htake := limbsValue_take_succ a hi
  rw [mulRowChecked, mulRow]
  by_cases hzero : a.limbs.getD i 0 = 0
  · simp only [hzero, if_true]
    refine ⟨trivial, hacc, ?_⟩
    rw [htake, hzero, hvalue]
    simp
  · obtain ⟨hcells, hrow⟩ := mulCells_spec (a.limbs.getD i 0) b hi hacc 4 (by omega)
    have hsum : cellsValue acc + (a.limbs.getD i 0).toNat * limbsValue (b.limbs.take 4) *
        2 ^ (64 * i) = limbsValue (a.limbs.take (i + 1)) * b.toNat := by
      have hall : limbsValue (b.limbs.take 4) = b.toNat := rfl
      rw [htake, hvalue, hall]
      ring
    rw [hsum] at hrow
    have hfit : limbsValue (a.limbs.take (i + 1)) * b.toNat < 2 ^ (64 * 8) := by
      have ha := (limbsValue_lt (a.limbs.take (i + 1))).trans_le
        (Nat.pow_le_pow_right (by decide) (Nat.mul_le_mul_left 64
          ((List.length_take_le _ _).trans (show i + 1 ≤ 4 by omega))))
      calc limbsValue (a.limbs.take (i + 1)) * b.toNat < 2 ^ (64 * 4) * 2 ^ 256 :=
            Nat.mul_lt_mul'' ha b.toNat_lt
        _ = 2 ^ (64 * 8) := by rw [← pow_add]
    have hrange : [0, 1, 2, 3] = List.range 4 := rfl
    obtain ⟨hpropagate, hout, htotal⟩ := propagate_spec hrow.cells hrow.carry
      (by omega : 4 - i + (i + 4) = 8) (by rw [hrow.total_eq]; exact hfit)
    simp only [hzero, if_false, hrange, hcells, Option.bind_eq_bind, Option.bind_some]
    exact ⟨hpropagate, hout, htotal.trans hrow.total_eq⟩

/-- The eight limbs are the whole product, and no sum on the way leaves 128 bits. -/
theorem mulWide_spec (a b : U256) :
    mulWideChecked a b = some (a.mulWide b) ∧
      limbsValue (a.mulWide b) = a.toNat * b.toNat := by
  have hrows : ∀ n ≤ 4,
      (List.range n).foldlM (mulRowChecked a b) (List.replicate 8 0) =
        some ((List.range n).foldl (mulRow a b) (List.replicate 8 0)) ∧
      IsCells ((List.range n).foldl (mulRow a b) (List.replicate 8 0)) ∧
      cellsValue ((List.range n).foldl (mulRow a b) (List.replicate 8 0)) =
        limbsValue (a.limbs.take n) * b.toNat := by
    intro n hn
    induction n with
    | zero => exact ⟨rfl, ⟨rfl, by simp⟩, by simp [cellsValue, limbsValue]⟩
    | succ n ih =>
      obtain ⟨hchecked, hcells, hvalue⟩ := ih (by omega)
      rw [List.range_succ, List.foldlM_append, List.foldl_append, hchecked]
      simpa using mulRow_spec (by omega) hcells hvalue
  obtain ⟨hchecked, hcells, hvalue⟩ := hrows 4 le_rfl
  have hrange : [0, 1, 2, 3] = List.range 4 := rfl
  rw [mulWideChecked, mulWide, hrange, hchecked]
  exact ⟨rfl, (limbsValue_map hcells.small).trans hvalue⟩

theorem bitLength_eq_topBit (a : U256) : a.bitLength = topBit a.limbs := by
  simp only [bitLength, topBit, limbs, List.reverse_cons, List.reverse_nil, List.nil_append,
    List.cons_append, topBitFrom, List.length_cons, List.length_nil, Nat.zero_mul, Nat.zero_add,
    Nat.one_mul]

theorem toNat_lt_bitLength (a : U256) : a.toNat < 2 ^ a.bitLength := by
  rw [bitLength_eq_topBit]
  exact limbsValue_lt_topBit a.limbs

theorem two_pow_le_limbsValue (x : List UInt64) (h : limbsValue x ≠ 0) :
    0 < topBit x ∧ 2 ^ (topBit x - 1) ≤ limbsValue x := by
  induction x using List.reverseRecOn with
  | nil => exact absurd rfl h
  | append_singleton l w ih =>
    rw [limbsValue_append] at h ⊢
    rw [topBit, List.reverse_append, List.reverse_singleton, List.singleton_append, topBitFrom]
    by_cases hw : w = 0
    · subst hw
      simpa [limbsValue, topBit] using ih (by simpa [limbsValue] using h)
    · have hne : w.toNat ≠ 0 := fun h0 => hw (UInt64.toNat_inj.mp h0)
      have hlog : w.toNat.log2 < 64 := (Nat.log2_lt hne).mpr w.toNat_lt
      have hle := Nat.log2_self_le hne
      rw [if_pos hw, List.length_reverse, leadingZeros, if_neg hw]
      refine ⟨by omega, ?_⟩
      simp only [limbsValue, Nat.mul_zero, Nat.add_zero]
      calc 2 ^ (l.length * 64 + (64 - (63 - w.toNat.log2)) - 1)
          = 2 ^ (64 * l.length) * 2 ^ w.toNat.log2 := by
            rw [← pow_add]
            congr 1
            omega
        _ ≤ 2 ^ (64 * l.length) * w.toNat := Nat.mul_le_mul_left _ hle
        _ ≤ limbsValue l + 2 ^ (64 * l.length) * w.toNat := Nat.le_add_left _ _

theorem bit_eq (a : U256) (i : ℕ) : a.bit i = a.toNat.testBit i := by
  have hlimb : a.toNat.testBit i = limbBit a.limbs i := by
    rw [limbBit_eq, Nat.testBit_eq_decide_div_mod_eq]
    rfl
  rw [bit]
  by_cases hi : 256 ≤ i
  · rw [if_pos hi, Nat.testBit_lt_two_pow
      (a.toNat_lt.trans_le (Nat.pow_le_pow_right (by decide) hi))]
  · rw [if_neg hi, hlimb]

theorem bit_top {a : U256} (h : a.toNat ≠ 0) :
    0 < a.bitLength ∧ a.bit (a.bitLength - 1) = true := by
  obtain ⟨hpos, hle⟩ := two_pow_le_limbsValue a.limbs h
  have hlt := toNat_lt_bitLength a
  rw [← bitLength_eq_topBit] at hpos hle
  refine ⟨hpos, ?_⟩
  rw [bit_eq]
  apply Nat.testBit_of_two_pow_le_and_two_pow_add_one_gt hle
  rwa [Nat.sub_add_cancel hpos]

end ZkVerifierWords.U256

namespace ZkVerifierWords

open U256

theorem addMod_spec {a b m : U256} (ha : a.toNat < m.toNat) (hb : b.toNat < m.toNat) :
    (addMod a b m).toNat = (a.toNat + b.toNat) % m.toNat := by
  have hsum := addCarry_spec a b
  have hdiff := subBorrow_spec (a.addCarry b).1 m
  have hborrow := subBorrow_borrow (a.addCarry b).1 m
  have hs := (a.addCarry b).1.toNat_lt
  have hm := m.toNat_lt
  have hwrap (hge : m.toNat ≤ a.toNat + b.toNat) :
      (a.toNat + b.toNat) % m.toNat = a.toNat + b.toNat - m.toNat := by
    rw [Nat.mod_eq_sub_mod hge, Nat.mod_eq_of_lt (by omega)]
  rw [addMod]
  cases hc : (a.addCarry b).2 with
  | true =>
    rw [hc, Bool.toNat_true] at hsum
    rw [hborrow.mpr (by omega), Bool.toNat_true] at hdiff
    rw [if_pos rfl, hwrap (by omega)]
    omega
  | false =>
    rw [hc, Bool.toNat_false, Nat.mul_zero, Nat.add_zero] at hsum
    rw [if_neg (by simp)]
    by_cases hlt : (a.addCarry b).1.toNat < m.toNat
    · rw [if_pos ((ltb_iff _ m).mpr hlt), hsum, Nat.mod_eq_of_lt (hsum ▸ hlt)]
    · have hno : ((a.addCarry b).1.subBorrow m).2 = false := by
        rw [← Bool.not_eq_true, hborrow]
        exact hlt
      rw [hno, Bool.toNat_false] at hdiff
      rw [if_neg (by rwa [ltb_iff]), hwrap (by omega)]
      omega

theorem subMod_of_le {a b : U256} (m : U256) (h : b.toNat ≤ a.toNat) :
    (subMod a b m).toNat = a.toNat - b.toNat := by
  have hdiff := subBorrow_spec a b
  have hno : (a.subBorrow b).2 = false := by
    rw [← Bool.not_eq_true, subBorrow_borrow]
    omega
  rw [hno, Bool.toNat_false] at hdiff
  rw [subMod, hno, if_neg (by simp)]
  omega

theorem subMod_spec {a b m : U256} (ha : a.toNat < m.toNat) (hb : b.toNat < m.toNat) :
    (subMod a b m).toNat = (a.toNat + (m.toNat - b.toNat)) % m.toNat := by
  by_cases hlt : a.toNat < b.toNat
  · have hdiff := subBorrow_spec a b
    have hsum := addCarry_spec (a.subBorrow b).1 m
    have hfixed := ((a.subBorrow b).1.addCarry m).1.toNat_lt
    have hm := m.toNat_lt
    have hborrow := (subBorrow_borrow a b).mpr hlt
    rw [hborrow, Bool.toNat_true] at hdiff
    have hc : ((a.subBorrow b).1.addCarry m).2 = true := by
      by_contra hne
      rw [Bool.not_eq_true] at hne
      rw [hne, Bool.toNat_false] at hsum
      omega
    rw [hc, Bool.toNat_true] at hsum
    rw [subMod, hborrow, if_pos rfl, Nat.mod_eq_of_lt (by omega)]
    omega
  · rw [subMod_of_le m (by omega),
      show a.toNat + (m.toNat - b.toNat) = a.toNat - b.toNat + m.toNat by omega,
      Nat.add_mod_right, Nat.mod_eq_of_lt (by omega)]

theorem mulMod_spec (a b : U256) {m : U256} (h0 : 0 < m.toNat) (hm : m.toNat < 2 ^ 255) :
    (mulMod a b m).toNat = a.toNat * b.toNat % m.toNat := by
  rw [mulMod, reduceWide_spec _ h0 hm, (mulWide_spec a b).2]

/-- After the bits below `n`: the power reached so far and the next square. The result is
reduced as soon as one bit of the exponent was set. -/
structure PowState (base exp m : U256) (n : ℕ) (s : U256 × U256) : Prop where
  result : s.1.toNat ≡ base.toNat ^ (exp.toNat % 2 ^ n) [MOD m.toNat]
  square : s.2.toNat ≡ base.toNat ^ 2 ^ n [MOD m.toNat]
  reduced : s.1.toNat < m.toNat ∨ exp.toNat % 2 ^ n = 0 ∧ s.1 = ONE

theorem powMod_state (base exp : U256) {m : U256} (h0 : 0 < m.toNat) (hm : m.toNat < 2 ^ 255)
    (n : ℕ) : PowState base exp m n ((List.range n).foldl (fun s i =>
      (if exp.bit i then mulMod s.1 s.2 m else s.1, mulMod s.2 s.2 m)) (ONE, base)) := by
  induction n with
  | zero =>
    refine ⟨?_, ?_, .inr ⟨?_, rfl⟩⟩
    · rw [pow_zero, Nat.mod_one, pow_zero]
      rfl
    · rw [pow_zero, pow_one]
      rfl
    · rw [pow_zero, Nat.mod_one]
  | succ n ih =>
    rw [List.range_succ, List.foldl_append, List.foldl_cons, List.foldl_nil]
    generalize (List.range n).foldl (fun s i =>
      (if exp.bit i then mulMod s.1 s.2 m else s.1, mulMod s.2 s.2 m)) (ONE, base) = s at ih ⊢
    have hsquare : (mulMod s.2 s.2 m).toNat ≡ base.toNat ^ 2 ^ (n + 1) [MOD m.toNat] := by
      rw [Nat.ModEq, mulMod_spec _ _ h0 hm, Nat.mod_mod, pow_succ 2 n, pow_mul, pow_two]
      exact ih.square.mul ih.square
    have hexp : exp.toNat % 2 ^ (n + 1) =
        exp.toNat % 2 ^ n + if exp.bit n then 2 ^ n else 0 := by
      rw [bit_eq, Nat.mod_pow_succ, Nat.testBit_eq_decide_div_mod_eq]
      rcases Nat.mod_two_eq_zero_or_one (exp.toNat / 2 ^ n) with hz | ho
      · simp [hz]
      · simp [ho]
    cases hbit : exp.bit n with
    | true =>
      rw [hbit, if_pos rfl] at hexp
      refine ⟨?_, hsquare, .inl ?_⟩
      · rw [if_pos rfl, hexp, pow_add, Nat.ModEq, mulMod_spec _ _ h0 hm, Nat.mod_mod]
        exact ih.result.mul ih.square
      · rw [if_pos rfl, mulMod_spec _ _ h0 hm]
        exact Nat.mod_lt _ h0
    | false =>
      rw [hbit, if_neg (by simp), Nat.add_zero] at hexp
      refine ⟨?_, hsquare, ?_⟩
      · rw [if_neg (by simp), hexp]
        exact ih.result
      · rw [if_neg (by simp), hexp]
        exact ih.reduced

/-- The loop starts from an unreduced `1`, which it returns when the exponent is zero. -/
theorem powMod_spec (base : U256) {exp m : U256} (h0 : 0 < m.toNat) (hm : m.toNat < 2 ^ 255)
    (h : m.toNat ≠ 1 ∨ exp.toNat ≠ 0) :
    (powMod base exp m).toNat = base.toNat ^ exp.toNat % m.toNat := by
  obtain ⟨hresult, -, hreduced⟩ := powMod_state base exp h0 hm exp.bitLength
  rw [Nat.mod_eq_of_lt (toNat_lt_bitLength exp)] at hresult hreduced
  have hlt : (powMod base exp m).toNat < m.toNat := by
    rcases hreduced with hlt | ⟨hzero, hone⟩
    · exact hlt
    · have : ONE.toNat = 1 := by decide
      rw [powMod, hone]
      omega
  rw [← Nat.mod_eq_of_lt hlt]
  exact hresult

theorem powMod_zero (base m : U256) : powMod base ZERO m = ONE := rfl

/-- Fermat's little theorem; for the modulus two the exponent is zero. -/
theorem invMod_spec {a m : U256} (hm : m.toNat < 2 ^ 255) (hp : m.toNat.Prime)
    (ha : ¬ m.toNat ∣ a.toNat) :
    (invMod a m).toNat < m.toNat ∧ a.toNat * (invMod a m).toNat % m.toNat = 1 := by
  have htwo : (fromU64 2).toNat = 2 := by decide
  have hdiff := subBorrow_spec m (fromU64 2)
  have hge := hp.two_le
  have hno : (m.subBorrow (fromU64 2)).2 = false := by
    rw [← Bool.not_eq_true, subBorrow_borrow, htwo]
    omega
  rw [hno, Bool.toNat_false, htwo] at hdiff
  have hpow : (invMod a m).toNat = a.toNat ^ (m.toNat - 2) % m.toNat := by
    rw [invMod, powMod_spec a (by omega) hm (.inl (by omega)),
      show (m.subBorrow (fromU64 2)).1.toNat = m.toNat - 2 by omega]
  have hfermat : a.toNat ^ (m.toNat - 1) ≡ 1 [MOD m.toNat] := by
    have hcoprime : IsCoprime (a.toNat : ℤ) m.toNat :=
      Nat.isCoprime_iff_coprime.mpr ((hp.coprime_iff_not_dvd.mpr ha).symm)
    have hint := Int.ModEq.pow_card_sub_one_eq_one hp hcoprime
    exact_mod_cast hint
  refine ⟨hpow ▸ Nat.mod_lt _ (by omega), ?_⟩
  rw [hpow, Nat.mul_mod_mod, ← pow_succ', show m.toNat - 2 + 1 = m.toNat - 1 by omega, hfermat,
    Nat.mod_eq_of_lt (by omega)]

/-- What the modular operations promise: `u` and `v` are any words, `x` any product, and `a`
and `b` residues. No operation below `mul_wide` overflows when its checked form agrees. -/
structure ArithmeticExact (u v : U256) (x : List UInt64) (a b e m : U256) : Prop where
  checked : mulWideChecked u v = some (u.mulWide v)
  product : limbsValue (u.mulWide v) = u.toNat * v.toNat
  reduced : (reduceWide x m).toNat = limbsValue x % m.toNat
  sum : (addMod a b m).toNat = (a.toNat + b.toNat) % m.toNat
  difference : ((subMod a b m).toNat : ℤ) = ((a.toNat : ℤ) - b.toNat) % m.toNat
  residue : (mulMod a b m).toNat = a.toNat * b.toNat % m.toNat
  power : (powMod u e m).toNat = u.toNat ^ e.toNat % m.toNat
  inverse : m.toNat.Prime → a.toNat ≠ 0 →
    (invMod a m).toNat < m.toNat ∧ a.toNat * (invMod a m).toNat % m.toNat = 1

/-- Everything is exact but the zeroth power modulo one, whose residue is `0`. -/
theorem arithmeticExact_iff (u v : U256) (x : List UInt64) {a b e m : U256}
    (h0 : 0 < m.toNat) (hm : m.toNat < 2 ^ 255) (ha : a.toNat < m.toNat)
    (hb : b.toNat < m.toNat) :
    ArithmeticExact u v x a b e m ↔ m.toNat ≠ 1 ∨ e.toNat ≠ 0 := by
  constructor
  · intro hexact
    by_contra hnot
    obtain ⟨hone, hzero⟩ : m.toNat = 1 ∧ e.toNat = 0 := by
      simpa only [not_or, not_not] using hnot
    have hpower := hexact.power
    have he : e = ZERO := toNat_inj (hzero.trans (by decide))
    have hvalue : ONE.toNat = 1 := by decide
    rw [he, powMod_zero, hone, Nat.mod_one, hvalue] at hpower
    omega
  · intro h
    obtain ⟨hchecked, hproduct⟩ := mulWide_spec u v
    refine ⟨hchecked, hproduct, reduceWide_spec x h0 hm, addMod_spec ha hb, ?_,
      mulMod_spec a b h0 hm, powMod_spec u h0 hm h, ?_⟩
    · rw [subMod_spec ha hb, Int.natCast_emod, Nat.cast_add, Nat.cast_sub hb.le,
        show (a.toNat : ℤ) + (m.toNat - b.toNat) = a.toNat - b.toNat + m.toNat by ring,
        Int.add_emod_right]
    · intro hp hne
      exact invMod_spec hm hp fun hdvd => hne (Nat.eq_zero_of_dvd_of_lt hdvd ha)

theorem arithmeticExact_seven : ArithmeticExact (fromU64 9) (fromU64 5)
    [1, 2, 3, 4, 5, 6, 7, 8] (fromU64 3) (fromU64 5) (fromU64 0) (fromU64 7) :=
  (arithmeticExact_iff (fromU64 9) (fromU64 5) [1, 2, 3, 4, 5, 6, 7, 8] (by decide) (by decide)
    (by decide) (by decide)).mpr (.inl (by decide))

theorem not_arithmeticExact_one : 0 < ONE.toNat ∧ ONE.toNat < 2 ^ 255 ∧
    ZERO.toNat < ONE.toNat ∧ (powMod ZERO ZERO ONE).toNat = 1 ∧
    ¬ ArithmeticExact ZERO ZERO (List.replicate 8 0) ZERO ZERO ZERO ONE := by
  refine ⟨by decide, by decide, by decide, by decide, fun hexact => ?_⟩
  exact absurd hexact.power (by decide)

end ZkVerifierWords
