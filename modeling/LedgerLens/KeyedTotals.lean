import Mathlib.Algebra.BigOperators.Group.List.Basic
import Mathlib.Algebra.Order.BigOperators.Group.List
import Mathlib.Algebra.Order.Group.Defs
import Mathlib.Data.Finmap

/-!
# Totals by key

Dictionaries of running totals: an entry is credited to its key and debited again, every result is
rounded, and a key whose total runs out is dropped. Where the amounts are positive and their sums
are exact, debiting what was credited first leaves the totals of the rest.
-/
namespace KeyedTotals

variable {K R E : Type*} [AddCommGroup R] (rnd : R → R)

abbrev Totals (K R : Type*) := Finmap fun _ : K => R

/-- The amounts added one by one, every sum rounded. -/
def roundedSum (l : List R) : R := l.foldl (fun s a => rnd (s + a)) 0

def ExactSums (l : List R) : Prop := ∀ part, part <:+: l → rnd part.sum = part.sum

variable {rnd}

theorem ExactSums.of_part {l l' : List R} (h : ExactSums rnd l) (hin : l' <:+: l) :
    ExactSums rnd l' := fun part hpart => h part (hpart.trans hin)

theorem exactSums_id (l : List R) : ExactSums id l := fun _ _ => rfl

theorem roundedSum_concat (l : List R) (a : R) :
    roundedSum rnd (l ++ [a]) = rnd (roundedSum rnd l + a) := by
  rw [roundedSum, List.foldl_append]
  rfl

theorem roundedSum_eq_sum {l : List R} (h : ExactSums rnd l) : roundedSum rnd l = l.sum := by
  induction l using List.reverseRecOn with
  | nil => rfl
  | append_singleton l a ih =>
    have hall := h (l ++ [a]) (List.infix_rfl)
    rw [List.sum_append, List.sum_singleton] at hall
    rw [roundedSum_concat, ih (h.of_part (List.prefix_append l [a]).isInfix), hall,
      List.sum_append, List.sum_singleton]

theorem rnd_roundedSum_cons_sub {a : R} {l : List R} (h : ExactSums rnd (a :: l)) :
    rnd (roundedSum rnd (a :: l) - a) = roundedSum rnd l := by
  have htail : ExactSums rnd l := h.of_part (List.suffix_cons a l).isInfix
  rw [roundedSum_eq_sum h, roundedSum_eq_sum htail, List.sum_cons, add_sub_cancel_left]
  exact htail l List.infix_rfl

variable [DecidableEq K]

section

variable (rnd)

def credit (d : Totals K R) (k : K) (a : R) : Totals K R :=
  d.insert k (rnd ((d.lookup k).getD 0 + a))

def debit [LinearOrder R] (d : Totals K R) (k : K) (a : R) : Totals K R :=
  let rest := max 0 (rnd ((d.lookup k).getD 0 - a))
  if rest ≤ 0 then d.erase k else d.insert k rest

variable (key : E → K) (amount : E → R)

def totals (l : List E) : Totals K R := l.foldl (fun d e => credit rnd d (key e) (amount e)) ∅

def amountsOf (l : List E) (k : K) : List R := (l.filter fun e => key e = k).map amount

end

variable {key : E → K} {amount : E → R}

theorem totals_concat (l : List E) (e : E) : totals rnd key amount (l ++ [e]) =
    credit rnd (totals rnd key amount l) (key e) (amount e) := by
  rw [totals, List.foldl_append]
  rfl

omit [AddCommGroup R] in
theorem amountsOf_concat_self (l : List E) (e : E) :
    amountsOf key amount (l ++ [e]) (key e) = amountsOf key amount l (key e) ++ [amount e] := by
  simp [amountsOf]

omit [AddCommGroup R] in
theorem amountsOf_cons_self (l : List E) (e : E) :
    amountsOf key amount (e :: l) (key e) = amount e :: amountsOf key amount l (key e) := by
  simp [amountsOf]

theorem lookup_totals (l : List E) (k : K) :
    (totals rnd key amount l).lookup k =
      if amountsOf key amount l k = [] then none
      else some (roundedSum rnd (amountsOf key amount l k)) := by
  induction l using List.reverseRecOn with
  | nil => rfl
  | append_singleton l e ih =>
    rw [totals_concat, credit]
    by_cases hkey : key e = k
    · subst hkey
      rw [Finmap.lookup_insert, ih, amountsOf_concat_self, roundedSum_concat]
      by_cases hnone : amountsOf key amount l (key e) = []
      · simp [hnone, roundedSum]
      · simp [hnone]
    · rw [Finmap.lookup_insert_of_ne _ (Ne.symm hkey), ih]
      simp [amountsOf, hkey]

variable [LinearOrder R]

theorem lookup_debit (d : Totals K R) (k k' : K) (a : R) :
    (debit rnd d k a).lookup k' =
      if k' = k then
        if rnd ((d.lookup k).getD 0 - a) ≤ 0 then none else some (rnd ((d.lookup k).getD 0 - a))
      else d.lookup k' := by
  simp only [debit, max_le_iff, le_refl, true_and]
  by_cases hk : k' = k
  · subst hk
    rw [if_pos rfl]
    split_ifs with hrest
    · exact Finmap.lookup_erase k' d
    · rw [Finmap.lookup_insert, max_eq_right (not_le.mp hrest).le]
  · rw [if_neg hk]
    split_ifs with hrest
    · exact Finmap.lookup_erase_ne hk
    · exact Finmap.lookup_insert_of_ne _ hk

variable [IsOrderedAddMonoid R]

theorem debit_totals {l : List E} {e : E} (hpos : ∀ e ∈ l, 0 < amount e)
    (hexact : ExactSums rnd (amountsOf key amount (e :: l) (key e))) :
    debit rnd (totals rnd key amount (e :: l)) (key e) (amount e) = totals rnd key amount l := by
  apply Finmap.ext_lookup
  intro k
  rw [lookup_debit, lookup_totals, lookup_totals, lookup_totals]
  by_cases hk : k = key e
  · subst hk
    rw [amountsOf_cons_self] at hexact ⊢
    rw [if_pos rfl, if_neg (List.cons_ne_nil _ _), Option.getD_some, rnd_roundedSum_cons_sub hexact]
    by_cases hnone : amountsOf key amount l (key e) = []
    · simp [hnone, roundedSum]
    · have hsum : 0 < roundedSum rnd (amountsOf key amount l (key e)) := by
        rw [roundedSum_eq_sum (hexact.of_part (List.suffix_cons _ _).isInfix)]
        apply List.sum_pos _ _ hnone
        intro a ha
        obtain ⟨e', he', rfl⟩ := List.mem_map.mp ha
        exact hpos e' (List.mem_of_mem_filter he')
      rw [if_neg hsum.not_ge, if_neg hnone]
  · have hne : key e ≠ k := fun heq => hk heq.symm
    have hsame : amountsOf key amount (e :: l) k = amountsOf key amount l k := by
      rw [amountsOf, List.filter_cons_of_neg (by simpa using hne), amountsOf]
    rw [if_neg hk, hsame]

end KeyedTotals
