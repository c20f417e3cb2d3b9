import LedgerLens.ByteStrings
import Mathlib.Data.List.Basic

/-!
# Bytes of texts

The UTF-8 and the ASCII encoding of a text, and the joining of byte strings by a separator that
the last of them does not hold.
-/
namespace TextBytes

open ByteStrings

theorem toList_loop (b : ByteArray) (i : ℕ) (seen : List UInt8) :
    ByteArray.toList.loop b i seen = seen.reverse ++ b.data.toList.drop i := by
  fun_induction ByteArray.toList.loop b i seen with
  | case1 i seen hi ih =>
    have hlen : i < b.data.toList.length := hi
    have hget : b.get! i = b.data.toList[i] := by
      rw [ByteArray.get!, getElem!_pos b.data i hi]
      rfl
    rw [ih, hget, List.drop_eq_getElem_cons hlen, List.reverse_cons, List.append_assoc]
    rfl
  | case2 i seen hi =>
    have hlen : b.data.toList.length ≤ i := Nat.le_of_not_lt hi
    rw [List.drop_eq_nil_of_le hlen, List.append_nil]

theorem toList_eq (b : ByteArray) : b.toList = b.data.toList := toList_loop b 0 []

def utf8 (s : String) : List UInt8 := s.toUTF8.toList

theorem utf8_inj {s t : String} (h : utf8 s = utf8 t) : s = t := by
  rw [utf8, utf8, toList_eq, toList_eq] at h
  exact String.toByteArray_inj.mp (ByteArray.ext (Array.toList_inj.mp h))

theorem utf8_eq_flatMap (s : String) : utf8 s = s.toList.flatMap String.utf8EncodeChar := by
  rw [utf8, toList_eq, String.toUTF8_eq_toByteArray, ← String.utf8Encode_toList]
  exact List.toList_data_toByteArray

def ascii (s : String) : Option (List UInt8) :=
  if s.toList.all (·.toNat ≤ 127) then some (s.toList.map fun c => c.val.toUInt8) else none

theorem utf8_of_ascii {s : String} {l : List UInt8} (h : ascii s = some l) : utf8 s = l := by
  unfold ascii at h
  split_ifs at h with hascii
  obtain rfl := Option.some.inj h
  rw [utf8_eq_flatMap, List.map_eq_flatMap]
  apply List.flatMap_congr
  intro c hc
  have hsmall : c.toNat ≤ 127 := of_decide_eq_true (List.all_eq_true.mp hascii c hc)
  have hle : c.val ≤ 127 := UInt32.le_iff_toNat_le.mpr hsmall
  exact String.utf8EncodeChar_eq_singleton (Char.utf8Size_eq_one_iff.mpr hle)

theorem append_separator_inj {α : Type*} {sep : α} {l l' r r' : List α} (hr : sep ∉ r)
    (hr' : sep ∉ r') (h : l ++ [sep] ++ r = l' ++ [sep] ++ r') : l = l' ∧ r = r' := by
  simp only [List.append_assoc, List.singleton_append] at h
  rcases List.append_eq_append_iff.mp h with ⟨m, hl, hm⟩ | ⟨m, hl, hm⟩
  · cases m with
    | nil => exact ⟨by rw [hl, List.append_nil], (List.cons.inj hm).2⟩
    | cons b m =>
      have hmem : sep ∈ m ++ sep :: r' := List.mem_append_right m List.mem_cons_self
      exact absurd ((List.cons.inj hm).2 ▸ hmem) hr
  · cases m with
    | nil => exact ⟨by rw [hl, List.append_nil], (List.cons.inj hm).2.symm⟩
    | cons b m =>
      have hmem : sep ∈ m ++ sep :: r := List.mem_append_right m List.mem_cons_self
      exact absurd ((List.cons.inj hm).2 ▸ hmem) hr'

theorem toBigEndian_inj {n v w : ℕ} (hv : v < 256 ^ n) (hw : w < 256 ^ n)
    (h : toBigEndian n v = toBigEndian n w) : v = w := by
  rw [← ofBigEndian_toBigEndian n v hv, h, ofBigEndian_toBigEndian n w hw]

end TextBytes
