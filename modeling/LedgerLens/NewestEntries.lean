import Mathlib.Data.List.DropRight
import Mathlib.Data.List.Sort

/-!
# The newest entries of a collection

A list in the order of a key that holds the newest entries of a collection up to a number of
places. Expiring entries, inserting one while there is a place, and giving the place of the oldest
to one that is not older keep it so; giving it to an older one does not.
-/
namespace NewestEntries

open scoped List

variable {α τ : Type*} [LinearOrder τ] {key : α → τ}

def Ordered (key : α → τ) (l : List α) : Prop := l.Pairwise fun a b => key a ≤ key b

def insertLate (key : α → τ) (a : α) (l : List α) : List α :=
  l.rdropWhile (fun b => key a < key b) ++ a :: l.rtakeWhile fun b => key a < key b

theorem insertLate_perm (key : α → τ) (a : α) (l : List α) :
    (insertLate key a l).Perm (a :: l) := by
  have hparts :
      l.rdropWhile (fun b => key a < key b) ++ l.rtakeWhile (fun b => key a < key b) = l :=
    List.rdropWhile_append_rtakeWhile
  calc insertLate key a l
      _ ~ a :: (l.rdropWhile (fun b => key a < key b) ++
            l.rtakeWhile fun b => key a < key b) := List.perm_middle
      _ = a :: l := by rw [hparts]

theorem insertLate_of_le {a : α} {l : List α} (h : ∀ b ∈ l, key b ≤ key a) :
    insertLate key a l = l ++ [a] := by
  have hlast (hl : l ≠ []) : ¬ decide (key a < key (l.getLast hl)) = true := by
    rw [decide_eq_true_iff, not_lt]
    exact h _ (List.getLast_mem hl)
  rw [insertLate, List.rdropWhile_eq_self_iff.mpr hlast, List.rtakeWhile_eq_nil_iff.mpr hlast]

theorem Ordered.le_of_rdropWhile {l : List α} (h : Ordered key l) {a b : α}
    (hb : b ∈ l.rdropWhile fun b => key a < key b) : key b ≤ key a := by
  have hprefix := h.sublist (List.rdropWhile_prefix (fun b => decide (key a < key b)) l).sublist
  have hne := List.ne_nil_of_mem hb
  have hlast := List.rdropWhile_last_not (fun b => decide (key a < key b)) l hne
  rw [decide_eq_true_iff, not_lt] at hlast
  rw [← List.dropLast_append_getLast hne] at hprefix hb
  rcases List.mem_append.mp hb with hb | hb
  · have hle := (List.pairwise_append.mp hprefix).2.2 b hb _ (List.mem_singleton_self _)
    exact hle.trans hlast
  · obtain rfl := List.mem_singleton.mp hb
    exact hlast

theorem Ordered.insertLate {l : List α} (h : Ordered key l) (a : α) :
    Ordered key (insertLate key a l) := by
  have hbefore (b : α) (hb : b ∈ l.rdropWhile fun b => key a < key b) : key b ≤ key a :=
    h.le_of_rdropWhile hb
  have hafter (b : α) (hb : b ∈ l.rtakeWhile fun b => key a < key b) : key a ≤ key b := by
    have hlt := List.mem_rtakeWhile_imp hb
    rw [decide_eq_true_iff] at hlt
    exact hlt.le
  refine List.pairwise_append.mpr ⟨h.sublist (List.rdropWhile_prefix _ _).sublist, ?_, ?_⟩
  · exact List.pairwise_cons.mpr ⟨hafter, h.sublist (List.rtakeWhile_suffix _ _).sublist⟩
  · intro b hb c hc
    rcases List.mem_cons.mp hc with rfl | hc
    · exact hbefore b hb
    · exact (hbefore b hb).trans (hafter c hc)

theorem Ordered.dropWhile_eq_filter {l : List α} (h : Ordered key l) (c : τ) :
    l.dropWhile (fun a => key a < c) = l.filter fun a => c ≤ key a := by
  induction l with
  | nil => rfl
  | cons a l ih =>
    obtain ⟨hle, hl⟩ := List.pairwise_cons.mp h
    by_cases hlt : key a < c
    · rw [List.dropWhile_cons_of_pos (by simpa using hlt),
        List.filter_cons_of_neg (by simpa using hlt)]
      exact ih hl
    · rw [List.dropWhile_cons_of_neg (by simpa using hlt), List.filter_eq_self.mpr]
      intro b hb
      have hc := not_lt.mp hlt
      rcases List.mem_cons.mp hb with rfl | hb
      · exact decide_eq_true hc
      · exact decide_eq_true (hc.trans (hle b hb))

/-- In order, as many as there are places for, and none of those left out is newer. -/
structure Newest (key : α → τ) (places : ℕ) (all kept : List α) : Prop where
  ordered : Ordered key kept
  newest : ∃ left, all.Perm (left ++ kept) ∧ kept.length = min places all.length ∧
    ∀ b ∈ left, ∀ a ∈ kept, key b ≤ key a

variable {places : ℕ} {all kept : List α}

theorem Newest.nil : Newest key places ([] : List α) [] :=
  ⟨.nil, [], .nil, (Nat.min_zero _).symm, fun _ hb => nomatch hb⟩

theorem Newest.perm_of_room (h : Newest key places all kept) (hroom : kept.length < places) :
    all.Perm kept := by
  obtain ⟨left, hperm, hlength, -⟩ := h.newest
  have hall := hperm.length_eq
  rw [List.length_append] at hall
  obtain rfl := List.length_eq_zero_iff.mp (show left.length = 0 by omega)
  exact hperm

/-- What is left out is no newer than an entry that is not older than some kept one. -/
theorem Newest.expire (h : Newest key places all kept) (c : τ) :
    Newest key places (all.filter fun a => c ≤ key a) (kept.dropWhile fun a => key a < c) := by
  rw [h.ordered.dropWhile_eq_filter]
  obtain ⟨left, hperm, hlength, hle⟩ := h.newest
  have hfiltered := hperm.filter fun a => decide (c ≤ key a)
  rw [List.filter_append] at hfiltered
  refine ⟨h.ordered.sublist List.filter_sublist, _, hfiltered, ?_, ?_⟩
  · have hcount := hfiltered.length_eq
    have hall := hperm.length_eq
    rw [List.length_append] at hcount hall
    rcases hleft : left.filter (fun a => decide (c ≤ key a)) with _ | ⟨b, rest⟩
    · rw [hleft, List.length_nil] at hcount
      have hkept := List.length_filter_le (fun a => decide (c ≤ key a)) kept
      omega
    · -- an entry that was left out has not expired, so no kept one has
      have hb : b ∈ left.filter fun a => decide (c ≤ key a) := hleft ▸ List.mem_cons_self
      obtain ⟨hb, hc⟩ := List.mem_filter.mp hb
      have hsame : kept.filter (fun a => decide (c ≤ key a)) = kept :=
        List.filter_eq_self.mpr fun a ha =>
          decide_eq_true ((of_decide_eq_true hc).trans (hle b hb a ha))
      have hpos := List.length_pos_of_mem hb
      rw [hsame] at hcount ⊢
      omega
  · intro b hb a ha
    exact hle b (List.mem_of_mem_filter hb) a (List.mem_of_mem_filter ha)

theorem Newest.insert (h : Newest key places all kept) (hroom : kept.length < places) (a : α) :
    Newest key places (all ++ [a]) (insertLate key a kept) := by
  have hperm := insertLate_perm key a kept
  have hall := h.perm_of_room hroom
  refine ⟨h.ordered.insertLate a, [], ?_, ?_, fun _ hb => nomatch hb⟩
  · exact (List.perm_append_singleton a all).trans ((hall.cons a).trans hperm.symm)
  · have hlength := hperm.length_eq
    have hcount := hall.length_eq
    rw [List.length_cons] at hlength
    rw [List.length_append, List.length_singleton]
    omega

/-- The oldest entry gives its place to one that is not older. -/
theorem Newest.replace {oldest : α} {rest : List α} (h : Newest key places all (oldest :: rest))
    (hfull : places ≤ (oldest :: rest).length) {a : α} (hle : key oldest ≤ key a) :
    Newest key places (all ++ [a]) (insertLate key a rest) := by
  have hperm := insertLate_perm key a rest
  obtain ⟨holdest, hrest⟩ := List.pairwise_cons.mp h.ordered
  obtain ⟨left, hall, hlength, hleft⟩ := h.newest
  refine ⟨Ordered.insertLate hrest a, oldest :: left, ?_, ?_, ?_⟩
  · calc all ++ [a]
        _ ~ a :: all := List.perm_append_singleton a all
        _ ~ a :: (left ++ oldest :: rest) := hall.cons a
        _ ~ a :: oldest :: (left ++ rest) := List.perm_middle.cons a
        _ ~ oldest :: a :: (left ++ rest) := .swap _ _ _
        _ ~ oldest :: (left ++ a :: rest) := List.perm_middle.symm.cons oldest
        _ ~ oldest :: (left ++ NewestEntries.insertLate key a rest) :=
          (hperm.symm.append_left left).cons oldest
  · have hcount := hperm.length_eq
    rw [List.length_cons] at hcount hfull hlength
    rw [List.length_append, List.length_singleton]
    omega
  · intro b hb a' ha'
    have ha' := hperm.mem_iff.mp ha'
    have hb' : key b ≤ key oldest := by
      rcases List.mem_cons.mp hb with rfl | hb
      · exact le_rfl
      · exact hleft b hb oldest List.mem_cons_self
    rcases List.mem_cons.mp ha' with rfl | ha'
    · exact hb'.trans hle
    · exact hb'.trans (holdest a' ha')

theorem Newest.displaced {oldest : α} {rest : List α} (h : Newest key places all (oldest :: rest))
    {a : α} (hlt : key a < key oldest) :
    ¬ Newest key places (all ++ [a]) (insertLate key a rest) := by
  intro hafter
  have hperm := insertLate_perm key a rest
  obtain ⟨left, hall, -⟩ := h.newest
  obtain ⟨left', hall', -, hle⟩ := hafter.newest
  have hmoved : (oldest :: left ++ a :: rest).Perm (left' ++ a :: rest) :=
    calc oldest :: left ++ a :: rest
      _ ~ a :: (oldest :: left ++ rest) := List.perm_middle
      _ ~ a :: (left ++ oldest :: rest) := List.perm_middle.symm.cons a
      _ ~ a :: all := hall.symm.cons a
      _ ~ all ++ [a] := (List.perm_append_singleton a all).symm
      _ ~ left' ++ insertLate key a rest := hall'
      _ ~ left' ++ a :: rest := hperm.append_left left'
  have hleft := (List.perm_append_right_iff _).mp hmoved
  have holdest : oldest ∈ left' := hleft.mem_iff.mp List.mem_cons_self
  exact hlt.not_ge (hle oldest holdest a (hperm.mem_iff.mpr List.mem_cons_self))

theorem Newest.keys_eq {all' kept' : List α} (h : Newest key places all kept)
    (h' : Newest key places all' kept') (hperm : all.Perm all') : kept.map key = kept'.map key := by
  have hkeys {all kept : List α} (h : Newest key places all kept) : ∃ older : List τ,
      (older ++ kept.map key).Pairwise (· ≤ ·) ∧ (older ++ kept.map key).Perm (all.map key) := by
    obtain ⟨left, hall, -, hle⟩ := h.newest
    refine ⟨(left.map key).insertionSort (· ≤ ·), ?_, ?_⟩
    · refine List.pairwise_append.mpr ⟨List.pairwise_insertionSort _ _, ?_, ?_⟩
      · exact List.pairwise_map.mpr h.ordered
      · intro k hk k' hk'
        obtain ⟨b, hb, rfl⟩ := List.mem_map.mp ((List.mem_insertionSort _).mp hk)
        obtain ⟨a, ha, rfl⟩ := List.mem_map.mp hk'
        exact hle b hb a ha
    · calc (left.map key).insertionSort (· ≤ ·) ++ kept.map key
        _ ~ left.map key ++ kept.map key := (List.perm_insertionSort _ _).append_right _
        _ = (left ++ kept).map key := (List.map_append ..).symm
        _ ~ all.map key := (hall.map key).symm
  obtain ⟨older, hsorted, hsame⟩ := hkeys h
  obtain ⟨older', hsorted', hsame'⟩ := hkeys h'
  have heq := (hsame.trans ((hperm.map key).trans hsame'.symm)).eq_of_pairwise
    (fun _ _ _ _ => le_antisymm) hsorted hsorted'
  obtain ⟨-, -, hlength, -⟩ := h.newest
  obtain ⟨-, -, hlength', -⟩ := h'.newest
  refine (List.append_inj' heq ?_).2
  rw [List.length_map, List.length_map, hlength, hlength', hperm.length_eq]

end NewestEntries
