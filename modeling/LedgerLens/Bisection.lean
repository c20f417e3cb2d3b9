import Mathlib.Data.List.Count
import Mathlib.Order.Lattice

/-!
# Bisection

`bisect_left` and `bisect_right` of a sorted list. Both search for the end of the entries that
belong to the left of a point, and find as many entries as there are of these; the entries between
two such points make a filter of the list.
-/
namespace Bisection

variable {α : Type*}

/-- The loop of both searches. -/
def bisect (l : List α) (left : α → Bool) (lo hi : ℕ) : ℕ :=
  if lo < hi then
    if l[(lo + hi) / 2]?.any left then bisect l left ((lo + hi) / 2 + 1) hi
    else bisect l left lo ((lo + hi) / 2)
  else lo
termination_by hi - lo

def Parted (l : List α) (left : α → Bool) : Prop := l.Pairwise fun a b => left b → left a

variable {l : List α} {left right : α → Bool} {lo hi : ℕ}

theorem Parted.lt_countP_iff (h : Parted l left) {i : ℕ} (hi : i < l.length) :
    i < l.countP left ↔ left l[i] := by
  induction l generalizing i with
  | nil => cases hi
  | cons a l ih =>
    obtain ⟨hfirst, hrest⟩ := List.pairwise_cons.mp h
    by_cases ha : left a
    · rw [List.countP_cons_of_pos ha]
      cases i with
      | zero => simp [ha]
      | succ i => simpa using ih hrest (Nat.lt_of_succ_lt_succ hi)
    · have hnone : l.countP left = 0 :=
        List.countP_eq_zero.mpr fun b hb hleft => ha (hfirst b hb hleft)
      rw [List.countP_cons_of_neg ha, hnone]
      cases i with
      | zero => simp [ha]
      | succ i =>
        have hlt : i < l.length := Nat.lt_of_succ_lt_succ hi
        have hlast : ¬ left l[i] := fun hleft => ha (hfirst _ (List.getElem_mem hlt) hleft)
        simpa using hlast

theorem bisect_eq (h : Parted l left) (hlo : lo ≤ l.countP left) (hhi : l.countP left ≤ hi)
    (hlength : hi ≤ l.length) : bisect l left lo hi = l.countP left := by
  fun_induction bisect l left lo hi with
  | case1 lo hi hlt hmid ih =>
    have hin : (lo + hi) / 2 < l.length := by omega
    rw [List.getElem?_eq_getElem hin, Option.any_some] at hmid
    have := (h.lt_countP_iff hin).mpr hmid
    exact ih this hhi hlength
  | case2 lo hi hlt hmid ih =>
    have hin : (lo + hi) / 2 < l.length := by omega
    rw [List.getElem?_eq_getElem hin, Option.any_some] at hmid
    have := mt (h.lt_countP_iff hin).mp hmid
    exact ih hlo (by omega) (by omega)
  | case3 lo hi hstop => omega

theorem Parted.take_countP (h : Parted l left) : l.take (l.countP left) = l.filter left := by
  induction l with
  | nil => rfl
  | cons a l ih =>
    obtain ⟨hfirst, hrest⟩ := List.pairwise_cons.mp h
    by_cases ha : left a
    · rw [List.countP_cons_of_pos ha, List.filter_cons_of_pos ha, List.take_succ_cons, ih hrest]
    · have hnone (b : α) (hb : b ∈ a :: l) : ¬ left b := by
        rcases List.mem_cons.mp hb with rfl | hb
        · exact ha
        · exact fun hleft => ha (hfirst b hb hleft)
      rw [List.countP_eq_zero.mpr hnone, List.filter_eq_nil_iff.mpr hnone, List.take_zero]

theorem Parted.drop_countP (h : Parted l left) :
    l.drop (l.countP left) = l.filter fun a => ¬ left a := by
  induction l with
  | nil => rfl
  | cons a l ih =>
    obtain ⟨hfirst, hrest⟩ := List.pairwise_cons.mp h
    by_cases ha : left a
    · rw [List.countP_cons_of_pos ha, List.drop_succ_cons, ih hrest,
        List.filter_cons_of_neg (by simpa using ha)]
    · have hnone (b : α) (hb : b ∈ a :: l) : ¬ left b := by
        rcases List.mem_cons.mp hb with rfl | hb
        · exact ha
        · exact fun hleft => ha (hfirst b hb hleft)
      rw [List.countP_eq_zero.mpr hnone, List.drop_zero]
      exact (List.filter_eq_self.mpr fun b hb => by simpa using hnone b hb).symm

theorem Parted.filter (h : Parted l left) (p : α → Bool) : Parted (l.filter p) left :=
  List.Pairwise.filter p h

theorem slice_eq_filter (hleft : Parted l left) (hright : Parted l right)
    (hsub : ∀ a, left a → right a) :
    (l.drop (l.countP left)).take (l.countP right - l.countP left) =
      l.filter fun a => right a ∧ ¬ left a := by
  have hcount : (l.filter right).countP left = l.countP left := by
    rw [List.countP_filter]
    refine List.countP_congr fun a _ => ?_
    rw [Bool.and_eq_true, and_iff_left_of_imp (hsub a)]
  rw [← List.drop_take, hright.take_countP, ← hcount, (hleft.filter right).drop_countP,
    List.filter_filter]
  refine List.filter_congr fun a _ => ?_
  simp [and_comm]

section

variable [LinearOrder α]

def bisectLeft (l : List α) (x : α) (lo : ℕ) : ℕ := bisect l (fun a => a < x) lo l.length

def bisectRight (l : List α) (x : α) (lo : ℕ) : ℕ := bisect l (fun a => ¬ x < a) lo l.length

theorem parted_lt (h : l.Pairwise (· ≤ ·)) (x : α) : Parted l fun a => a < x :=
  h.imp fun hab hb => decide_eq_true (hab.trans_lt (of_decide_eq_true hb))

theorem parted_le (h : l.Pairwise (· ≤ ·)) (x : α) : Parted l fun a => a ≤ x :=
  h.imp fun hab hb => decide_eq_true (hab.trans (of_decide_eq_true hb))

theorem bisectLeft_eq (h : l.Pairwise (· ≤ ·)) {x : α} (hlo : lo ≤ l.countP fun a => a < x) :
    bisectLeft l x lo = l.countP fun a => a < x :=
  bisect_eq (parted_lt h x) hlo List.countP_le_length (Nat.le_refl _)

theorem bisectRight_eq (h : l.Pairwise (· ≤ ·)) {x : α} (hlo : lo ≤ l.countP fun a => a ≤ x) :
    bisectRight l x lo = l.countP fun a => a ≤ x := by
  simp only [bisectRight, not_lt]
  exact bisect_eq (parted_le h x) hlo List.countP_le_length (Nat.le_refl _)

end

end Bisection
