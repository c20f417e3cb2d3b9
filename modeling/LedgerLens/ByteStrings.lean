import Mathlib.Algebra.BigOperators.Group.Finset.Basic
import Mathlib.Data.Nat.Basic
import Mathlib.Data.List.Induction
import Mathlib.Tactic.Ring

/-!
# Byte strings and their integer readings

Unsigned integers of a fixed byte width, most significant byte first, and the
reversed reading. Both directions are exact on the width they are written for, and the
binary digits of a number add up to it.
-/
namespace ByteStrings

/-- A byte string of exactly `n` bytes. -/
structure BytesN (n : ℕ) where
  bytes : List UInt8
  length_eq : bytes.length = n
  deriving DecidableEq

def ofBigEndian (l : List UInt8) : ℕ := l.foldl (fun v b => 256 * v + b.toNat) 0

def ofLittleEndian (l : List UInt8) : ℕ := ofBigEndian l.reverse

/-- The low `n` bytes of `v`. -/
def toBigEndian : ℕ → ℕ → List UInt8
  | 0, _ => []
  | n + 1, v => toBigEndian n (v / 256) ++ [UInt8.ofNat v]

@[simp] theorem length_toBigEndian (n v : ℕ) : (toBigEndian n v).length = n := by
  induction n generalizing v with
  | zero => rfl
  | succ n ih => simp [toBigEndian, ih]

def BytesN.ofNat (n v : ℕ) : BytesN n := ⟨toBigEndian n v, length_toBigEndian n v⟩

/-- The `n` bytes from `offset` on; callers stay inside the string. -/
def BytesN.slice (n : ℕ) (l : List UInt8) (offset : ℕ) : BytesN n :=
  ⟨((l.drop offset).take n).rightpad n 0, by simp [List.rightpad]⟩

@[simp] theorem ofBigEndian_nil : ofBigEndian [] = 0 := rfl

@[simp] theorem ofBigEndian_concat (l : List UInt8) (b : UInt8) :
    ofBigEndian (l ++ [b]) = 256 * ofBigEndian l + b.toNat := by
  simp [ofBigEndian]

theorem ofBigEndian_append (l r : List UInt8) :
    ofBigEndian (l ++ r) = 256 ^ r.length * ofBigEndian l + ofBigEndian r := by
  induction r using List.reverseRecOn with
  | nil => simp
  | append_singleton r b ih =>
    rw [← List.append_assoc, ofBigEndian_concat, ofBigEndian_concat, ih, List.length_append,
      List.length_singleton, pow_succ]
    ring

theorem ofBigEndian_lt (l : List UInt8) : ofBigEndian l < 256 ^ l.length := by
  induction l using List.reverseRecOn with
  | nil => simp
  | append_singleton l b ih =>
    have hb := b.toNat_lt
    rw [ofBigEndian_concat, List.length_append, List.length_singleton, pow_succ]
    omega

theorem ofBigEndian_toBigEndian (n v : ℕ) (h : v < 256 ^ n) :
    ofBigEndian (toBigEndian n v) = v := by
  induction n generalizing v with
  | zero => simp at h; simp [toBigEndian, h]
  | succ n ih =>
    have hv : v / 256 < 256 ^ n := by rw [pow_succ] at h; omega
    rw [toBigEndian, ofBigEndian_concat, ih _ hv]
    simp
    omega

theorem toBigEndian_ofBigEndian (l : List UInt8) :
    toBigEndian l.length (ofBigEndian l) = l := by
  induction l using List.reverseRecOn with
  | nil => rfl
  | append_singleton l b ih =>
    have hb := b.toNat_lt
    have hdiv : (256 * ofBigEndian l + b.toNat) / 256 = ofBigEndian l := by omega
    have hmod : UInt8.ofNat (256 * ofBigEndian l + b.toNat) = b := by
      apply UInt8.toNat_inj.mp
      simp
    rw [List.length_append, List.length_singleton, toBigEndian, ofBigEndian_concat, hdiv, ih,
      hmod]

theorem slice_append (pre : List UInt8) {n : ℕ} (b : BytesN n) (post : List UInt8) :
    BytesN.slice n (pre ++ (b.bytes ++ post)) pre.length = b := by
  obtain ⟨l, rfl⟩ := b
  simp [BytesN.slice, List.rightpad]

/-- The binary digits below position `n` add up to the residue. -/
theorem sum_testBit (v n : ℕ) :
    ∑ i ∈ Finset.range n, (v.testBit i).toNat * 2 ^ i = v % 2 ^ n := by
  induction n with
  | zero => rw [Finset.sum_range_zero, pow_zero, Nat.mod_one]
  | succ n ih => rw [Finset.sum_range_succ, ih, Nat.mod_pow_succ, Nat.toNat_testBit, mul_comm]

end ByteStrings
