import Mathlib.Algebra.BigOperators.Fin
import Mathlib.Algebra.Order.BigOperators.Group.List
import Mathlib.Data.List.Sort

/-!
# Sums and counts over sorted lists

The first entries of a sorted list have the least sum that as many of its entries can have, and
of the entries above the one at a position there are no more than come after it.
-/
namespace SortedSums

variable {K : Type*} [LinearOrder K]

def sorted (l : List K) : List K := l.insertionSort (· ≤ ·)

theorem sorted_perm (l : List K) : (sorted l).Perm l := List.perm_insertionSort _ l

theorem sorted_pairwise (l : List K) : (sorted l).Pairwise (· ≤ ·) :=
  List.pairwise_insertionSort _ l

theorem sorted_congr {l l' : List K} (h : l.Perm l') : sorted l = sorted l' :=
  List.Perm.eq_of_pairwise' (sorted_pairwise l) (sorted_pairwise l')
    ((sorted_perm l).trans (h.trans (sorted_perm l').symm))

theorem length_sorted (l : List K) : (sorted l).length = l.length := List.length_insertionSort _ l

section Sums

variable [AddCommGroup K] [IsOrderedAddMonoid K]

theorem sum_take_le_of_sublist {l s : List K} (hl : l.Pairwise (· ≤ ·)) (hs : s.Sublist l) :
    (l.take s.length).sum ≤ s.sum := by
  induction l generalizing s with
  | nil =>
    obtain rfl := List.sublist_nil.mp hs
    exact le_rfl
  | cons a l ih =>
    obtain ⟨hhead, hl⟩ := List.pairwise_cons.mp hl
    cases s with
    | nil => exact le_rfl
    | cons b s =>
      have hb : a ≤ b := by
        rcases List.mem_cons.mp (hs.subset List.mem_cons_self) with rfl | hb
        · exact le_rfl
        · exact hhead b hb
      rw [List.length_cons, List.take_succ_cons, List.sum_cons, List.sum_cons]
      exact add_le_add hb (ih hl hs.tail)

theorem sum_take_sorted_le {l s : List K} (hs : s.Subperm l) :
    ((sorted l).take s.length).sum ≤ s.sum := by
  have hsub : (sorted s).Sublist (sorted l) :=
    List.sublist_insertionSort' (sorted_pairwise s) ((sorted_perm s).subperm_right.mpr hs)
  have hle := sum_take_le_of_sublist (sorted_pairwise l) hsub
  rwa [length_sorted, (sorted_perm s).sum_eq] at hle

end Sums

theorem le_getElem_of_mem_take {l : List K} (hl : l.Pairwise (· ≤ ·)) {k : ℕ} (hk : k < l.length)
    {a : K} (ha : a ∈ l.take (k + 1)) : a ≤ l[k] := by
  obtain ⟨i, hi, rfl⟩ := List.getElem_of_mem ha
  rw [List.length_take] at hi
  rw [List.getElem_take]
  rcases Nat.lt_or_ge i k with hlt | hge
  · exact List.pairwise_iff_getElem.mp hl i k (by omega) hk hlt
  · have hik : i = k := by omega
    simp only [hik, le_refl]

theorem countP_lt_getElem_le {l : List K} (hl : l.Pairwise (· ≤ ·)) {k : ℕ} (hk : k < l.length) :
    l.countP (fun a => l[k] < a) ≤ l.length - (k + 1) := by
  have hfirst : (l.take (k + 1)).countP (fun a => l[k] < a) = 0 := by
    rw [List.countP_eq_zero]
    intro a ha
    simpa using le_getElem_of_mem_take hl hk ha
  calc l.countP (fun a => l[k] < a)
      = (l.take (k + 1)).countP (fun a => l[k] < a) +
          (l.drop (k + 1)).countP (fun a => l[k] < a) := by
        rw [← List.countP_append, List.take_append_drop]
    _ ≤ l.length - (k + 1) := by
        rw [hfirst, zero_add, ← List.length_drop]
        exact List.countP_le_length

/-- The entry at a position bounds what has no more smaller entries than the position. -/
theorem le_getElem_iff {l : List K} (hl : l.Pairwise (· ≤ ·)) {k : ℕ} (hk : k < l.length) {x : K} :
    x ≤ l[k] ↔ l.countP (fun a => a < x) ≤ k := by
  constructor
  · intro hx
    have hlast : (l.drop k).countP (fun a => a < x) = 0 := by
      rw [List.countP_eq_zero]
      intro a ha
      obtain ⟨i, hi, rfl⟩ := List.getElem_of_mem ha
      rw [List.length_drop] at hi
      rw [List.getElem_drop, decide_eq_true_iff, not_lt]
      apply hx.trans
      rcases Nat.eq_zero_or_pos i with rfl | hpos
      · simp
      · exact List.pairwise_iff_getElem.mp hl k (k + i) hk (by omega) (by omega)
    calc l.countP (fun a => a < x)
        = (l.take k).countP (fun a => a < x) + (l.drop k).countP (fun a => a < x) := by
          rw [← List.countP_append, List.take_append_drop]
      _ ≤ k := by
          rw [hlast, add_zero]
          exact List.countP_le_length.trans (List.length_take_le k l)
  · intro hcount
    by_contra hlt
    have hfirst : (l.take (k + 1)).countP (fun a => a < x) = (l.take (k + 1)).length := by
      rw [List.countP_eq_length]
      intro a ha
      exact decide_eq_true ((le_getElem_of_mem_take hl hk ha).trans_lt (not_le.mp hlt))
    have hsub := (List.take_sublist (k + 1) l).countP_le (p := fun a => decide (a < x))
    rw [hfirst, List.length_take] at hsub
    omega

theorem lt_countP_le_getElem {l : List K} (hl : l.Pairwise (· ≤ ·)) {k : ℕ} (hk : k < l.length) :
    k < l.countP (fun a => a ≤ l[k]) := by
  have hfirst : (l.take (k + 1)).countP (fun a => a ≤ l[k]) = (l.take (k + 1)).length := by
    rw [List.countP_eq_length]
    exact fun a ha => decide_eq_true (le_getElem_of_mem_take hl hk ha)
  have hsub := (List.take_sublist (k + 1) l).countP_le (p := fun a => decide (a ≤ l[k]))
  rw [hfirst, List.length_take] at hsub
  omega

section Adversary

variable {n i : ℕ} {v : Fin n → K} {l : List K}

omit [LinearOrder K] in
theorem countP_perm_ofFn (hperm : l.Perm (List.ofFn v)) (p : K → Bool) :
    l.countP p = (List.finRange n).countP (p ∘ v) := by
  rw [hperm.countP_eq, List.ofFn_eq_map, List.countP_map]

theorem countP_mem_le (B : Finset (Fin n)) : (List.finRange n).countP (· ∈ B) ≤ B.card := by
  have hnodup : ((List.finRange n).filter (· ∈ B)).Nodup := (List.nodup_finRange n).filter _
  rw [List.countP_eq_length_filter, ← List.toFinset_card_of_nodup hnodup]
  refine Finset.card_le_card fun j hj => ?_
  simpa using hj

theorem exists_le_getElem (hl : l.Pairwise (· ≤ ·)) (hperm : l.Perm (List.ofFn v))
    {B : Finset (Fin n)} (hi : i < l.length) (hB : B.card ≤ i) : ∃ j ∉ B, v j ≤ l[i] := by
  by_contra hnone
  have hcount := lt_countP_le_getElem hl hi
  rw [countP_perm_ofFn hperm] at hcount
  have hmono : (List.finRange n).countP ((fun a => decide (a ≤ l[i])) ∘ v) ≤
      (List.finRange n).countP (· ∈ B) := by
    apply List.countP_mono_left
    intro j _ hj
    by_contra hgood
    exact hnone ⟨j, by simpa using hgood, by simpa using hj⟩
  have hbad := countP_mem_le B
  omega

/-- A position with more entries from it on than bad ones lies below some good one. -/
theorem exists_getElem_le (hl : l.Pairwise (· ≤ ·)) (hperm : l.Perm (List.ofFn v))
    {B : Finset (Fin n)} (hi : i < l.length) (hB : B.card + i < n) : ∃ j ∉ B, l[i] ≤ v j := by
  by_contra hnone
  have hcount := (le_getElem_iff hl hi).mp le_rfl
  rw [countP_perm_ofFn hperm] at hcount
  have hcover : (List.finRange n).length ≤
      (List.finRange n).countP (· ∈ B) +
        (List.finRange n).countP ((fun a => decide (a < l[i])) ∘ v) := by
    rw [List.length_eq_countP_add_countP (· ∈ B)]
    apply Nat.add_le_add_left
    apply List.countP_mono_left
    intro j _ hj
    by_contra hge
    exact hnone ⟨j, by simpa using hj, by simpa using hge⟩
  have hbad := countP_mem_le B
  rw [List.length_finRange] at hcover
  omega

end Adversary

end SortedSums
