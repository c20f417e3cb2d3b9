import Mathlib.Data.List.Sort

/-!
# The first items of a stable sort

A stable sort by a key orders items of one key as they were ordered before. An item is among the
first `n` of an ordered list exactly when fewer than `n` items come before it.
-/
namespace StableBatches

variable {α τ : Type*}

section Sorting

variable [LinearOrder τ] (key : α → τ) (before : α → α → Prop)

/-- Of a smaller key, or of the same key and before. -/
def Earlier (a b : α) : Prop := key a < key b ∨ key a = key b ∧ before a b

instance [DecidableRel before] : DecidableRel (Earlier key before) :=
  fun _ _ => inferInstanceAs (Decidable (_ ∨ _))

def sortBy (l : List α) : List α := l.mergeSort fun a b => decide (key a ≤ key b)

variable {key before}

theorem Earlier.asymm (h : ∀ a b, before a b → ¬ before b a) {a b : α}
    (hab : Earlier key before a b) : ¬ Earlier key before b a := by
  rintro (hlt | ⟨heq, hbefore⟩)
  · rcases hab with hlt' | ⟨heq', -⟩
    · exact lt_asymm hlt hlt'
    · exact hlt.ne heq'.symm
  · rcases hab with hlt' | ⟨-, hbefore'⟩
    · exact hlt'.ne heq.symm
    · exact h a b hbefore' hbefore

theorem mem_sortBy {l : List α} {a : α} : a ∈ sortBy key l ↔ a ∈ l := List.mem_mergeSort

theorem sortBy_perm (l : List α) : (sortBy key l).Perm l := List.mergeSort_perm _ _

theorem sortBy_pairwise {l : List α} (h : l.Pairwise before) :
    (sortBy key l).Pairwise (Earlier key before) := by
  have htrans : ∀ a b c : α, decide (key a ≤ key b) = true → decide (key b ≤ key c) = true →
      decide (key a ≤ key c) = true := by
    intro a b c hab hbc
    exact decide_eq_true ((of_decide_eq_true hab).trans (of_decide_eq_true hbc))
  have htotal : ∀ a b : α, (decide (key a ≤ key b) || decide (key b ≤ key a)) = true := by
    intro a b
    rw [Bool.or_eq_true, decide_eq_true_iff, decide_eq_true_iff]
    exact le_total _ _
  induction l with
  | nil => simp [sortBy]
  | cons a l ih =>
    obtain ⟨ha, hl⟩ := List.pairwise_cons.mp h
    obtain ⟨front, back, hcons, hrest, hfront⟩ := List.mergeSort_cons htrans htotal a l
    have hsorted := ih hl
    rw [sortBy, hrest] at hsorted
    have hle := List.pairwise_mergeSort htrans htotal (a :: l)
    rw [hcons] at hle
    obtain ⟨hpairs, hback, hcross⟩ := List.pairwise_append.mp hsorted
    rw [sortBy, hcons]
    refine List.pairwise_append.mpr ⟨hpairs, List.pairwise_cons.mpr ⟨fun b hb => ?_, hback⟩, ?_⟩
    · -- behind `a` come items of the same key that stood behind it, or of greater ones
      have hab := (List.pairwise_cons.mp (List.pairwise_append.mp hle).2.1).1 b hb
      have hmem : b ∈ l := by
        have hin : b ∈ front ++ back := List.mem_append_right front hb
        rw [← hrest] at hin
        exact List.mem_mergeSort.mp hin
      rcases (of_decide_eq_true hab).lt_or_eq with hlt | heq
      · exact .inl hlt
      · exact .inr ⟨heq, ha b hmem⟩
    · intro b hb c hc
      rcases List.mem_cons.mp hc with rfl | hc
      · have hnot := hfront b hb
        rw [Bool.not_eq_true', decide_eq_false_iff_not, not_le] at hnot
        exact .inl hnot
      · exact hcross b hb c hc

end Sorting

section First

variable {r : α → α → Prop} [DecidableRel r] {l : List α} {a : α} {n : ℕ}

theorem split_at (hasymm : ∀ a b, r a b → ¬ r b a) (hl : l.Pairwise r) (ha : a ∈ l) :
    ∃ back, l = (l.filter fun b => r b a) ++ a :: back := by
  have hirrefl : ¬ r a a := fun h => hasymm a a h h
  obtain ⟨front, back, rfl⟩ := List.append_of_mem ha
  obtain ⟨-, hback, hcross⟩ := List.pairwise_append.mp hl
  have hfront : (front.filter fun b => r b a) = front :=
    List.filter_eq_self.mpr fun b hb => decide_eq_true (hcross b hb a List.mem_cons_self)
  have hnone : ((a :: back).filter fun b => r b a) = [] := by
    refine List.filter_eq_nil_iff.mpr fun b hb hba => ?_
    rcases List.mem_cons.mp hb with rfl | hb
    · exact hirrefl (of_decide_eq_true hba)
    · exact hasymm a b ((List.pairwise_cons.mp hback).1 b hb) (of_decide_eq_true hba)
  exact ⟨back, by rw [List.filter_append, hfront, hnone, List.append_nil]⟩

theorem mem_take_iff (hasymm : ∀ a b, r a b → ¬ r b a) (hl : l.Pairwise r) (ha : a ∈ l) :
    a ∈ l.take n ↔ (l.filter fun b => r b a).length < n := by
  obtain ⟨back, hsplit⟩ := split_at hasymm hl ha
  have hnot : a ∉ l.filter fun b => r b a := by
    intro h
    have hself := of_decide_eq_true (List.mem_filter.mp h).2
    exact hasymm a a hself hself
  constructor
  · intro htake
    by_contra hle
    rw [hsplit, List.take_append_of_le_length (not_lt.mp hle)] at htake
    exact hnot (List.mem_of_mem_take htake)
  · intro hlt
    rw [hsplit, List.take_append]
    refine List.mem_append_right _ ?_
    obtain ⟨k, hk⟩ := Nat.exists_eq_add_of_lt hlt
    rw [show n - (l.filter fun b => decide (r b a)).length = k + 1 by omega, List.take_succ_cons]
    exact List.mem_cons_self

theorem take_before (hasymm : ∀ a b, r a b → ¬ r b a) (hl : l.Pairwise r) (ha : a ∈ l)
    (hnot : a ∉ l.take n) : (l.take n).length = n ∧ ∀ b ∈ l.take n, r b a := by
  obtain ⟨back, hsplit⟩ := split_at hasymm hl ha
  have hle := not_lt.mp (mt (mem_take_iff hasymm hl ha).mpr hnot)
  have htake : l.take n = (l.filter fun b => r b a).take n := by
    conv_lhs => rw [hsplit]
    exact List.take_append_of_le_length hle
  rw [htake]
  refine ⟨List.length_take_of_le hle, fun b hb => ?_⟩
  exact of_decide_eq_true (List.mem_filter.mp (List.mem_of_mem_take hb)).2

end First

end StableBatches
