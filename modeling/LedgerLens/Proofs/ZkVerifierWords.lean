import LedgerLens.ByteStrings
import Mathlib.Tactic.Ring
import Mathlib.Tactic.Linarith

/-!
# 256-bit words of the verifier contract

`U256` of `contracts/zk_verifier/src/curve.rs`: four little-endian 64-bit limbs with
explicit borrows and carries, and the bit-by-bit reduction of a 512-bit product.
-/
namespace ZkVerifierWords

open ByteStrings

structure U256 where
  limb0 : UInt64
  limb1 : UInt64
  limb2 : UInt64
  limb3 : UInt64
  deriving DecidableEq, Repr

def limbsValue : List UInt64 → ℕ
  | [] => 0
  | w :: ws => w.toNat + 2 ^ 64 * limbsValue ws

namespace U256

def limbs (a : U256) : List UInt64 := [a.limb0, a.limb1, a.limb2, a.limb3]

def toNat (a : U256) : ℕ := limbsValue a.limbs

def ZERO : U256 := ⟨0, 0, 0, 0⟩
def ONE : U256 := ⟨1, 0, 0, 0⟩
def fromU64 (v : UInt64) : U256 := ⟨v, 0, 0, 0⟩
def isZero (a : U256) : Bool := a == ZERO

def cmp (a b : U256) : Ordering :=
  (compare a.limb3 b.limb3).then <| (compare a.limb2 b.limb2).then <|
    (compare a.limb1 b.limb1).then (compare a.limb0 b.limb0)

def ltb (a b : U256) : Bool := a.cmp b == .lt

def limbOfBytes (l : List UInt8) : UInt64 := l.foldl (fun v b => (v <<< 8) ||| b.toUInt64) 0

/-- Limb `i` covers bytes `24 - 8 * i` to `32 - 8 * i`. -/
def fromBeBytes (b : BytesN 32) : U256 :=
  let limb i := limbOfBytes ((b.bytes.drop (24 - 8 * i)).take 8)
  ⟨limb 0, limb 1, limb 2, limb 3⟩

def limbBytes (w : UInt64) : List UInt8 := toBigEndian 8 w.toNat

def toBeBytes (a : U256) : BytesN 32 :=
  ⟨limbBytes a.limb3 ++ limbBytes a.limb2 ++ limbBytes a.limb1 ++ limbBytes a.limb0,
    by simp [limbBytes]⟩

def leadingZeros (w : UInt64) : ℕ := if w = 0 then 64 else 63 - w.toNat.log2

def bitLength (a : U256) : ℕ :=
  if a.limb3 ≠ 0 then 3 * 64 + (64 - leadingZeros a.limb3)
  else if a.limb2 ≠ 0 then 2 * 64 + (64 - leadingZeros a.limb2)
  else if a.limb1 ≠ 0 then 64 + (64 - leadingZeros a.limb1)
  else if a.limb0 ≠ 0 then 64 - leadingZeros a.limb0
  else 0

end U256

/-- Bit `i` of little-endian limbs. -/
def limbBit (x : List UInt64) (i : ℕ) : Bool :=
  (x.getD (i / 64) 0 >>> UInt64.ofNat (i % 64)) &&& 1 == 1

def U256.bit (a : U256) (i : ℕ) : Bool := if 256 ≤ i then false else limbBit a.limbs i

/-- One limb of a subtraction: `overflowing_sub` twice, the borrows joined. -/
def subLimb (a b : UInt64) (borrow : Bool) : UInt64 × Bool :=
  let d := a - b
  (d - borrow.toUInt64, decide (a < b) || decide (d < borrow.toUInt64))

/-- One limb of an addition: `overflowing_add` twice, the carries joined. -/
def addLimb (a b : UInt64) (carry : Bool) : UInt64 × Bool :=
  let s := a + b
  let t := s + carry.toUInt64
  (t, decide (s < a) || decide (t < s))

def shlLimb (a : UInt64) (carry : UInt64) : UInt64 × UInt64 := ((a <<< 1) ||| carry, a >>> 63)

namespace U256

def subBorrow (a b : U256) : U256 × Bool :=
  let d0 := subLimb a.limb0 b.limb0 false
  let d1 := subLimb a.limb1 b.limb1 d0.2
  let d2 := subLimb a.limb2 b.limb2 d1.2
  let d3 := subLimb a.limb3 b.limb3 d2.2
  (⟨d0.1, d1.1, d2.1, d3.1⟩, d3.2)

def addCarry (a b : U256) : U256 × Bool :=
  let s0 := addLimb a.limb0 b.limb0 false
  let s1 := addLimb a.limb1 b.limb1 s0.2
  let s2 := addLimb a.limb2 b.limb2 s1.2
  let s3 := addLimb a.limb3 b.limb3 s2.2
  (⟨s0.1, s1.1, s2.1, s3.1⟩, s3.2)

def shl1 (a : U256) : U256 × Bool :=
  let s0 := shlLimb a.limb0 0
  let s1 := shlLimb a.limb1 s0.2
  let s2 := shlLimb a.limb2 s1.2
  let s3 := shlLimb a.limb3 s2.2
  (⟨s0.1, s1.1, s2.1, s3.1⟩, s3.2 != 0)

/-- Cells of the schoolbook product, `u128` each. -/
def mulCell (ai : UInt64) (b : U256) (i : ℕ) (s : List ℕ × ℕ) (j : ℕ) : List ℕ × ℕ :=
  let prod := (ai.toNat * (b.limbs.getD j 0).toNat + s.1.getD (i + j) 0 + s.2) % 2 ^ 128
  (s.1.set (i + j) (prod % 2 ^ 64), prod / 2 ^ 64)

/-- The `while carry != 0` loop; `fuel` counts the cells above `k`. -/
def propagate : ℕ → ℕ → List ℕ → ℕ → List ℕ
  | 0, _, acc, _ => acc
  | fuel + 1, k, acc, carry =>
    if carry = 0 then acc
    else
      let s := (acc.getD k 0 + carry) % 2 ^ 128
      propagate fuel (k + 1) (acc.set k (s % 2 ^ 64)) (s / 2 ^ 64)

def mulRow (a b : U256) (acc : List ℕ) (i : ℕ) : List ℕ :=
  let ai := a.limbs.getD i 0
  if ai = 0 then acc
  else
    let s := [0, 1, 2, 3].foldl (mulCell ai b i) (acc, 0)
    propagate (4 - i) (i + 4) s.1 s.2

/-- All 512 bits of the product, in eight limbs. -/
def mulWide (a b : U256) : List UInt64 :=
  ([0, 1, 2, 3].foldl (mulRow a b) (List.replicate 8 0)).map UInt64.ofNat

end U256

/-- One turn of the long division: shift in a bit, then subtract the modulus if it fits. -/
def reduceStep (m r : U256) (bit : Bool) : U256 :=
  let shifted := r.shl1.1
  let r := if bit then { shifted with limb0 := shifted.limb0 ||| 1 } else shifted
  let d := r.subBorrow m
  if d.2 then r else d.1

def reduceLoop (x : List UInt64) (m : U256) : ℕ → U256 → U256
  | 0, r => r
  | i + 1, r => reduceLoop x m i (reduceStep m r (limbBit x i))

/-- Scan from the most significant limb for the highest bit set; counts the bits below it. -/
def topBitFrom : List UInt64 → ℕ
  | [] => 0
  | w :: ws => if w ≠ 0 then ws.length * 64 + (64 - U256.leadingZeros w) else topBitFrom ws

def topBit (x : List UInt64) : ℕ := topBitFrom x.reverse

def reduceWide (x : List UInt64) (m : U256) : U256 := reduceLoop x m (topBit x) .ZERO

def U256.rem (a m : U256) : U256 :=
  if a.ltb m then a else reduceWide (a.limbs ++ [0, 0, 0, 0]) m

def addMod (a b m : U256) : U256 :=
  let s := a.addCarry b
  if s.2 then (s.1.subBorrow m).1
  else if s.1.ltb m then s.1
  else (s.1.subBorrow m).1

def subMod (a b m : U256) : U256 :=
  let d := a.subBorrow b
  if d.2 then (d.1.addCarry m).1 else d.1

def mulMod (a b m : U256) : U256 := reduceWide (a.mulWide b) m

/-- Square and multiply from the low bit, over the bits of the exponent. -/
def powMod (base exp m : U256) : U256 :=
  ((List.range exp.bitLength).foldl (fun s i =>
    (if exp.bit i then mulMod s.1 s.2 m else s.1, mulMod s.2 s.2 m)) (U256.ONE, base)).1

def invMod (a m : U256) : U256 := powMod a (m.subBorrow (.fromU64 2)).1 m

theorem limbsValue_append (l r : List UInt64) :
    limbsValue (l ++ r) = limbsValue l + 2 ^ (64 * l.length) * limbsValue r := by
  induction l with
  | nil => simp [limbsValue]
  | cons w l ih =>
    rw [List.cons_append, limbsValue, limbsValue, ih, List.length_cons,
      Nat.mul_add 64 l.length 1, pow_add]
    ring

theorem limbsValue_lt (l : List UInt64) : limbsValue l < 2 ^ (64 * l.length) := by
  induction l with
  | nil => simp [limbsValue]
  | cons w l ih =>
    have hw := w.toNat_lt
    rw [limbsValue, List.length_cons, Nat.mul_add, pow_add]
    omega

theorem U256.toNat_eq (a : U256) : a.toNat = a.limb0.toNat + 2 ^ 64 * a.limb1.toNat +
    2 ^ 128 * a.limb2.toNat + 2 ^ 192 * a.limb3.toNat := by
  simp only [U256.toNat, U256.limbs, limbsValue]
  ring

theorem U256.toNat_lt (a : U256) : a.toNat < 2 ^ 256 := limbsValue_lt a.limbs

theorem U256.toNat_inj {a b : U256} (h : a.toNat = b.toNat) : a = b := by
  rw [U256.toNat_eq, U256.toNat_eq] at h
  have := a.limb0.toNat_lt; have := a.limb1.toNat_lt
  have := a.limb2.toNat_lt; have := a.limb3.toNat_lt
  have := b.limb0.toNat_lt; have := b.limb1.toNat_lt
  have := b.limb2.toNat_lt; have := b.limb3.toNat_lt
  cases a; cases b
  simp only [U256.mk.injEq, ← UInt64.toNat_inj] at *
  omega

private theorem compare_word (a b : UInt64) :
    (compare a b = .lt ↔ a.toNat < b.toNat) ∧ (compare a b = .eq ↔ a.toNat = b.toNat) := by
  have h : compare a b = if a < b then .lt else if a = b then .eq else .gt := rfl
  rw [h, ← UInt64.lt_iff_toNat_lt, UInt64.toNat_inj]
  by_cases hlt : a < b
  · have hne : a ≠ b := fun he => by rw [he] at hlt; exact absurd hlt (UInt64.lt_irrefl b)
    simp [hlt, hne]
  · by_cases heq : a = b <;> simp [hlt, heq]

theorem U256.ltb_iff (a b : U256) : a.ltb b = true ↔ a.toNat < b.toNat := by
  have := a.limb0.toNat_lt; have := a.limb1.toNat_lt
  have := a.limb2.toNat_lt; have := a.limb3.toNat_lt
  have := b.limb0.toNat_lt; have := b.limb1.toNat_lt
  have := b.limb2.toNat_lt; have := b.limb3.toNat_lt
  rw [U256.toNat_eq, U256.toNat_eq]
  simp only [U256.ltb, U256.cmp, beq_iff_eq, Ordering.then_eq_lt, (compare_word _ _).1,
    (compare_word _ _).2]
  omega

theorem toNat_toUInt64 (b : Bool) : b.toUInt64.toNat = b.toNat := by cases b <;> rfl

theorem subLimb_spec (a b : UInt64) (borrow : Bool) :
    (subLimb a b borrow).1.toNat + b.toNat + borrow.toNat =
      a.toNat + 2 ^ 64 * (subLimb a b borrow).2.toNat := by
  have ha := a.toNat_lt
  have hb := b.toNat_lt
  have hc : borrow.toNat ≤ 1 := Bool.toNat_le borrow
  simp only [subLimb, UInt64.lt_iff_toNat_lt, UInt64.toNat_sub, toNat_toUInt64]
  by_cases h1 : a.toNat < b.toNat
  · simp only [h1, decide_true, Bool.true_or, Bool.toNat_true]
    omega
  · simp only [h1, decide_false, Bool.false_or]
    by_cases h2 : (2 ^ 64 - b.toNat + a.toNat) % 2 ^ 64 < borrow.toNat
    · simp only [h2, decide_true, Bool.toNat_true]
      omega
    · simp only [h2, decide_false, Bool.toNat_false]
      omega

theorem addLimb_spec (a b : UInt64) (carry : Bool) :
    (addLimb a b carry).1.toNat + 2 ^ 64 * (addLimb a b carry).2.toNat =
      a.toNat + b.toNat + carry.toNat := by
  have ha := a.toNat_lt
  have hb := b.toNat_lt
  have hc : carry.toNat ≤ 1 := Bool.toNat_le carry
  simp only [addLimb, UInt64.lt_iff_toNat_lt, UInt64.toNat_add, toNat_toUInt64]
  by_cases h1 : (a.toNat + b.toNat) % 2 ^ 64 < a.toNat
  · simp only [h1, decide_true, Bool.true_or, Bool.toNat_true]
    omega
  · simp only [h1, decide_false, Bool.false_or]
    by_cases h2 : ((a.toNat + b.toNat) % 2 ^ 64 + carry.toNat) % 2 ^ 64 <
        (a.toNat + b.toNat) % 2 ^ 64
    · simp only [h2, decide_true, Bool.toNat_true]
      omega
    · simp only [h2, decide_false, Bool.toNat_false]
      omega

theorem U256.subBorrow_spec (a b : U256) : (a.subBorrow b).1.toNat + b.toNat =
    a.toNat + 2 ^ 256 * (a.subBorrow b).2.toNat := by
  have h0 := subLimb_spec a.limb0 b.limb0 false
  have h1 := subLimb_spec a.limb1 b.limb1 (subLimb a.limb0 b.limb0 false).2
  have h2 := subLimb_spec a.limb2 b.limb2
    (subLimb a.limb1 b.limb1 (subLimb a.limb0 b.limb0 false).2).2
  have h3 := subLimb_spec a.limb3 b.limb3 (subLimb a.limb2 b.limb2
    (subLimb a.limb1 b.limb1 (subLimb a.limb0 b.limb0 false).2).2).2
  simp only [U256.toNat_eq, U256.subBorrow, Bool.toNat_false] at *
  omega

theorem U256.addCarry_spec (a b : U256) : (a.addCarry b).1.toNat +
    2 ^ 256 * (a.addCarry b).2.toNat = a.toNat + b.toNat := by
  have h0 := addLimb_spec a.limb0 b.limb0 false
  have h1 := addLimb_spec a.limb1 b.limb1 (addLimb a.limb0 b.limb0 false).2
  have h2 := addLimb_spec a.limb2 b.limb2
    (addLimb a.limb1 b.limb1 (addLimb a.limb0 b.limb0 false).2).2
  have h3 := addLimb_spec a.limb3 b.limb3 (addLimb a.limb2 b.limb2
    (addLimb a.limb1 b.limb1 (addLimb a.limb0 b.limb0 false).2).2).2
  simp only [U256.toNat_eq, U256.addCarry, Bool.toNat_false] at *
  omega

private theorem or_low {x y k : ℕ} (hx : 2 ^ k ∣ x) (hy : y < 2 ^ k) : x ||| y = x + y := by
  obtain ⟨z, rfl⟩ := hx
  exact (Nat.two_pow_add_eq_or_of_lt hy z).symm

theorem shlLimb_spec (a carry : UInt64) (hc : carry.toNat ≤ 1) :
    (shlLimb a carry).1.toNat + 2 ^ 64 * (shlLimb a carry).2.toNat =
      2 * a.toNat + carry.toNat ∧ (shlLimb a carry).2.toNat ≤ 1 := by
  have ha := a.toNat_lt
  have hshift : (a <<< 1).toNat = 2 * a.toNat % 2 ^ 64 := by
    rw [UInt64.toNat_shiftLeft]
    simp [Nat.shiftLeft_eq, Nat.mul_comm]
  have hor : ((a <<< 1) ||| carry).toNat = 2 * a.toNat % 2 ^ 64 + carry.toNat := by
    rw [UInt64.toNat_or, hshift]
    exact or_low (k := 1) (by omega) (by omega)
  have hcarry : (a >>> 63).toNat = a.toNat / 2 ^ 63 := by
    rw [UInt64.toNat_shiftRight]
    simp [Nat.shiftRight_eq_div_pow]
  simp only [shlLimb, hor, hcarry]
  omega

theorem U256.shl1_spec (a : U256) (h : a.toNat < 2 ^ 255) :
    a.shl1.1.toNat = 2 * a.toNat := by
  obtain ⟨h0, c0⟩ := shlLimb_spec a.limb0 0 (by decide)
  obtain ⟨h1, c1⟩ := shlLimb_spec a.limb1 _ c0
  obtain ⟨h2, c2⟩ := shlLimb_spec a.limb2 _ c1
  obtain ⟨h3, c3⟩ := shlLimb_spec a.limb3 _ c2
  have hz : (0 : UInt64).toNat = 0 := rfl
  simp only [U256.toNat_eq, U256.shl1] at *
  omega

private theorem wordBit_eq (w : UInt64) {j : ℕ} (hj : j < 64) :
    ((w >>> UInt64.ofNat j) &&& 1 == 1) = decide (w.toNat / 2 ^ j % 2 = 1) := by
  have h : ((w >>> UInt64.ofNat j) &&& 1).toNat = w.toNat / 2 ^ j % 2 := by
    rw [UInt64.toNat_and, UInt64.toNat_shiftRight, UInt64.toNat_ofNat', UInt64.toNat_one,
      Nat.and_one_is_mod, Nat.shiftRight_eq_div_pow, Nat.mod_eq_of_lt (by omega : j < 2 ^ 64),
      Nat.mod_eq_of_lt hj]
  rw [← h, Bool.eq_iff_iff, beq_iff_eq, decide_eq_true_eq, ← UInt64.toNat_inj, UInt64.toNat_one]

theorem limbBit_eq (x : List UInt64) (i : ℕ) :
    limbBit x i = decide (limbsValue x / 2 ^ i % 2 = 1) := by
  induction x generalizing i with
  | nil =>
    rw [limbBit, List.getD_nil, wordBit_eq 0 (Nat.mod_lt i (by decide))]
    simp [limbsValue]
  | cons w l ih =>
    rcases Nat.lt_or_ge i 64 with hi | hi
    · have hdiv : i / 64 = 0 := Nat.div_eq_of_lt hi
      have hmod : i % 64 = i := Nat.mod_eq_of_lt hi
      have heven : limbsValue (w :: l) / 2 ^ i % 2 = w.toNat / 2 ^ i % 2 := by
        have hpow : (2 : ℕ) ^ 64 = 2 ^ i * (2 * 2 ^ (63 - i)) := by
          rw [← pow_succ', ← pow_add]
          congr 1
          omega
        rw [limbsValue, hpow, Nat.mul_assoc, Nat.add_mul_div_left _ _ (by positivity),
          Nat.mul_assoc, Nat.add_mul_mod_self_left]
      rw [limbBit, hdiv, hmod, List.getD_cons_zero, wordBit_eq w hi, heven]
    · obtain ⟨k, rfl⟩ := Nat.exists_eq_add_of_le hi
      have hdiv : (64 + k) / 64 = k / 64 + 1 := by omega
      have hmod : (64 + k) % 64 = k % 64 := by omega
      have hval : limbsValue (w :: l) / 2 ^ (64 + k) = limbsValue l / 2 ^ k := by
        rw [pow_add, ← Nat.div_div_eq_div_mul, limbsValue,
          Nat.add_mul_div_left _ _ (by positivity), Nat.div_eq_of_lt w.toNat_lt, Nat.zero_add]
      rw [limbBit, hdiv, hmod, List.getD_cons_succ, hval, ← ih k, limbBit]

theorem U256.subBorrow_borrow (a b : U256) : (a.subBorrow b).2 = true ↔ a.toNat < b.toNat := by
  have h := U256.subBorrow_spec a b
  have hd := (a.subBorrow b).1.toNat_lt
  have ha := a.toNat_lt
  cases hb : (a.subBorrow b).2 <;> simp only [hb, Bool.toNat_true, Bool.toNat_false] at h
  · simp; omega
  · simp; omega

private theorem setLowBit_toNat {a : U256} (h : a.toNat % 2 = 0) :
    { a with limb0 := a.limb0 ||| 1 : U256 }.toNat = a.toNat + 1 := by
  have heven : a.limb0.toNat % 2 = 0 := by
    rw [U256.toNat_eq] at h
    omega
  have hor : (a.limb0 ||| 1).toNat = a.limb0.toNat + 1 := by
    rw [UInt64.toNat_or]
    exact or_low (k := 1) (by omega) (by decide)
  rw [U256.toNat_eq, U256.toNat_eq]
  simp only [hor]
  omega

/-- The remainder stays below the modulus, so one conditional subtraction is enough. -/
theorem reduceStep_spec {m r : U256} (hm : m.toNat < 2 ^ 255) (hr : r.toNat < m.toNat)
    (bit : Bool) :
    (reduceStep m r bit).toNat = (2 * r.toNat + bit.toNat) % m.toNat := by
  have hshift := U256.shl1_spec r (by omega)
  obtain ⟨v, hv⟩ : ∃ v : U256, v = if bit then
      { r.shl1.1 with limb0 := r.shl1.1.limb0 ||| 1 } else r.shl1.1 := ⟨_, rfl⟩
  have hvn : v.toNat = 2 * r.toNat + bit.toNat := by
    cases bit with
    | false => rw [hv]; simpa using hshift
    | true =>
      rw [hv, if_pos rfl, setLowBit_toNat (by omega), hshift]
      rfl
  have hb : bit.toNat ≤ 1 := Bool.toNat_le bit
  have hspec := U256.subBorrow_spec v m
  have hstep : reduceStep m r bit = if (v.subBorrow m).2 then v else (v.subBorrow m).1 := by
    rw [hv]; rfl
  rw [hstep]
  by_cases hlt : v.toNat < m.toNat
  · rw [if_pos ((U256.subBorrow_borrow v m).mpr hlt), hvn, Nat.mod_eq_of_lt (hvn ▸ hlt)]
  · have hno : (v.subBorrow m).2 = false := by
      rw [← Bool.not_eq_true, U256.subBorrow_borrow]
      exact hlt
    rw [if_neg (by simp [hno])]
    rw [hno, Bool.toNat_false] at hspec
    rw [← hvn, Nat.mod_eq_sub_mod (by omega), Nat.mod_eq_of_lt (by omega)]
    omega

/-- After the bits from `i` up the remainder is the quotient by `2 ^ i`, reduced. -/
theorem reduceLoop_spec {m : U256} (x : List UInt64) (hm : m.toNat < 2 ^ 255) :
    ∀ (i : ℕ) (r : U256), r.toNat < m.toNat →
      r.toNat = limbsValue x / 2 ^ i % m.toNat →
      (reduceLoop x m i r).toNat = limbsValue x % m.toNat := by
  intro i
  induction i with
  | zero =>
    intro r _ h
    rw [reduceLoop, h, pow_zero, Nat.div_one]
  | succ i ih =>
    intro r hr h
    have hstep := reduceStep_spec hm hr (limbBit x i)
    have hbit : (limbBit x i).toNat = limbsValue x / 2 ^ i % 2 := by
      rw [limbBit_eq]
      rcases Nat.mod_two_eq_zero_or_one (limbsValue x / 2 ^ i) with h0 | h1
      · simp [h0]
      · simp [h1]
    have hhalf : limbsValue x / 2 ^ (i + 1) = limbsValue x / 2 ^ i / 2 := by
      rw [pow_succ, Nat.div_div_eq_div_mul]
    have hnext : (reduceStep m r (limbBit x i)).toNat = limbsValue x / 2 ^ i % m.toNat := by
      rw [hstep, h, hbit, hhalf, Nat.add_mod, Nat.mul_mod_mod, ← Nat.add_mod, Nat.div_add_mod]
    rw [reduceLoop]
    exact ih _ (hnext ▸ Nat.mod_lt _ (by omega)) hnext

private theorem word_lt_leadingZeros {w : UInt64} (h : w ≠ 0) :
    w.toNat < 2 ^ (64 - U256.leadingZeros w) := by
  have hw : w.toNat ≠ 0 := fun h0 => h (UInt64.toNat_inj.mp h0)
  have hlog : w.toNat.log2 < 64 := (Nat.log2_lt hw).mpr w.toNat_lt
  rw [U256.leadingZeros, if_neg h, show 64 - (63 - w.toNat.log2) = w.toNat.log2 + 1 by omega]
  exact Nat.lt_log2_self

theorem limbsValue_lt_topBit (x : List UInt64) : limbsValue x < 2 ^ topBit x := by
  induction x using List.reverseRecOn with
  | nil => simp [limbsValue]
  | append_singleton l w ih =>
    rw [topBit, List.reverse_append, List.reverse_singleton, List.singleton_append, topBitFrom,
      limbsValue_append]
    by_cases hw : w = 0
    · subst hw
      simpa [limbsValue, topBit] using ih
    · have hl := limbsValue_lt l
      have hword := word_lt_leadingZeros hw
      rw [if_pos hw, List.length_reverse, Nat.mul_comm l.length 64, pow_add]
      simp only [limbsValue, Nat.mul_zero, Nat.add_zero]
      calc limbsValue l + 2 ^ (64 * l.length) * w.toNat
          < 2 ^ (64 * l.length) + 2 ^ (64 * l.length) * w.toNat := by omega
        _ = 2 ^ (64 * l.length) * (w.toNat + 1) := by ring
        _ ≤ 2 ^ (64 * l.length) * 2 ^ (64 - U256.leadingZeros w) :=
          Nat.mul_le_mul_left _ hword

theorem reduceWide_spec (x : List UInt64) {m : U256} (h0 : 0 < m.toNat)
    (hm : m.toNat < 2 ^ 255) : (reduceWide x m).toNat = limbsValue x % m.toNat := by
  have hz : U256.ZERO.toNat = 0 := by decide
  apply reduceLoop_spec x hm (topBit x) .ZERO (by omega)
  rw [hz, Nat.div_eq_of_lt (limbsValue_lt_topBit x), Nat.zero_mod]

theorem U256.rem_spec (a : U256) {m : U256} (h0 : 0 < m.toNat) (hm : m.toNat < 2 ^ 255) :
    (a.rem m).toNat = a.toNat % m.toNat := by
  rw [U256.rem]
  by_cases h : a.ltb m = true
  · rw [if_pos h, Nat.mod_eq_of_lt ((U256.ltb_iff a m).mp h)]
  · rw [if_neg h, reduceWide_spec _ h0 hm, limbsValue_append]
    simp [U256.toNat, limbsValue]

private theorem limbOfBytes_concat (l : List UInt8) (b : UInt8) :
    U256.limbOfBytes (l ++ [b]) = (U256.limbOfBytes l <<< 8) ||| b.toUInt64 := by
  simp [U256.limbOfBytes]

theorem limbOfBytes_toNat (l : List UInt8) (h : l.length ≤ 8) :
    (U256.limbOfBytes l).toNat = ofBigEndian l := by
  induction l using List.reverseRecOn with
  | nil => rfl
  | append_singleton l b ih =>
    rw [List.length_append, List.length_singleton] at h
    have hl := ih (by omega)
    have hlt : ofBigEndian l < 256 ^ 7 :=
      (ofBigEndian_lt l).trans_le (Nat.pow_le_pow_right (by decide) (by omega))
    have hb := b.toNat_lt
    have hshift : (U256.limbOfBytes l <<< 8).toNat = 256 * ofBigEndian l := by
      rw [UInt64.toNat_shiftLeft, hl]
      simp only [UInt64.reduceToNat, Nat.reduceMod, Nat.shiftLeft_eq]
      omega
    rw [limbOfBytes_concat, ofBigEndian_concat, UInt64.toNat_or, hshift, UInt8.toNat_toUInt64]
    exact or_low (k := 8) (by omega) (by omega)

theorem U256.fromBeBytes_toNat (b : BytesN 32) :
    (U256.fromBeBytes b).toNat = ofBigEndian b.bytes := by
  obtain ⟨l, hl⟩ := b
  have hsplit : l = ((l.drop 0).take 8 ++ (l.drop 8).take 8) ++
      ((l.drop 16).take 8 ++ (l.drop 24).take 8) := by
    conv_lhs => rw [← List.take_append_drop 8 l, ← List.take_append_drop 8 (l.drop 8),
      ← List.take_append_drop 8 ((l.drop 8).drop 8),
      ← List.take_append_drop 8 (((l.drop 8).drop 8).drop 8)]
    simp [List.drop_drop, List.drop_eq_nil_of_le, hl]
  have hlen (i : ℕ) : ((l.drop i).take 8).length ≤ 8 := by simp
  have h8 : ((l.drop 8).take 8).length = 8 := by simp [hl]
  have h16 : ((l.drop 16).take 8).length = 8 := by simp [hl]
  have h24 : ((l.drop 24).take 8).length = 8 := by simp [hl]
  rw [U256.toNat_eq]
  simp only [U256.fromBeBytes, limbOfBytes_toNat _ (hlen _)]
  conv_rhs => rw [hsplit]
  rw [ofBigEndian_append, ofBigEndian_append, ofBigEndian_append, List.length_append, h8, h16, h24]
  norm_num
  ring

end ZkVerifierWords
