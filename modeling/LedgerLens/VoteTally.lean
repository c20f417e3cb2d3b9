import Mathlib.Data.List.Basic
import Mathlib.Data.List.Nodup
import Mathlib.Data.List.Induction
import Mathlib.Data.Nat.Basic
import Mathlib.Order.Lattice

/-!
# Tallies in order of first occurrence

Ballots grouped by their value, as an insertion-ordered dictionary does, and the group a
scan with strict comparison settles on.
-/
namespace VoteTally

variable {α β : Type*}

section Tally

variable [DecidableEq β] (key : α → β)

/-- Append a ballot to its group, or open a group at the end. -/
def insertBallot (a : α) : List (β × List α) → List (β × List α)
  | [] => [(key a, [a])]
  | (v, g) :: rest =>
    if v = key a then (v, g ++ [a]) :: rest else (v, g) :: insertBallot a rest

def tally (ballots : List α) : List (β × List α) :=
  ballots.foldl (fun t a => insertBallot key a t) []

def group (ballots : List α) (v : β) : List α := ballots.filter fun a => key a = v

theorem group_append (l r : List α) (v : β) :
    group key (l ++ r) v = group key l v ++ group key r v :=
  List.filter_append l r

theorem group_singleton (a : α) (v : β) : group key [a] v = if key a = v then [a] else [] := by
  by_cases h : key a = v <;> simp [group, h]

/-- Each group holds exactly the ballots of its value, and every ballot has its group. -/
structure IsTally (ballots : List α) (t : List (β × List α)) : Prop where
  nodup : (t.map Prod.fst).Nodup
  group_eq : ∀ e ∈ t, e.2 = group key ballots e.1
  covers : ∀ a ∈ ballots, key a ∈ t.map Prod.fst

theorem insertBallot_keys (a : α) (t : List (β × List α)) :
    (insertBallot key a t).map Prod.fst =
      if key a ∈ t.map Prod.fst then t.map Prod.fst else t.map Prod.fst ++ [key a] := by
  induction t with
  | nil => rfl
  | cons e rest ih =>
    rcases e with ⟨v, g⟩
    by_cases hv : v = key a
    · simp [insertBallot, hv]
    · simp only [insertBallot, if_neg hv, List.map_cons, ih, List.mem_cons, Ne.symm hv, false_or]
      split_ifs <;> rfl

theorem mem_insertBallot {a : α} {t : List (β × List α)} (hn : (t.map Prod.fst).Nodup)
    {e : β × List α} (h : e ∈ insertBallot key a t) :
    (e.1 ≠ key a ∧ e ∈ t) ∨ (∃ g, (key a, g) ∈ t ∧ e = (key a, g ++ [a])) ∨
      (key a ∉ t.map Prod.fst ∧ e = (key a, [a])) := by
  induction t with
  | nil =>
    obtain rfl := List.mem_singleton.mp h
    exact .inr (.inr ⟨List.not_mem_nil, rfl⟩)
  | cons f rest ih =>
    rcases f with ⟨v, g⟩
    rcases List.nodup_cons.mp hn with ⟨hv, hrest⟩
    by_cases heq : v = key a
    · rw [insertBallot, if_pos heq] at h
      rcases List.mem_cons.mp h with rfl | hmem
      · exact .inr (.inl ⟨g, heq ▸ List.mem_cons_self, by rw [heq]⟩)
      · refine .inl ⟨fun he => hv ?_, List.mem_cons_of_mem _ hmem⟩
        exact List.mem_map.mpr ⟨e, hmem, he.trans heq.symm⟩
    · rw [insertBallot, if_neg heq] at h
      rcases List.mem_cons.mp h with rfl | hmem
      · exact .inl ⟨heq, List.mem_cons_self⟩
      · rcases ih hrest hmem with ⟨hne, hm⟩ | ⟨g', hg', he⟩ | ⟨hnew, he⟩
        · exact .inl ⟨hne, List.mem_cons_of_mem _ hm⟩
        · exact .inr (.inl ⟨g', List.mem_cons_of_mem _ hg', he⟩)
        · refine .inr (.inr ⟨?_, he⟩)
          rw [List.map_cons, List.mem_cons, not_or]
          exact ⟨Ne.symm heq, hnew⟩

theorem insertBallot_isTally {ballots : List α} {t : List (β × List α)}
    (h : IsTally key ballots t) (a : α) : IsTally key (ballots ++ [a]) (insertBallot key a t) where
  nodup := by
    rw [insertBallot_keys]
    split_ifs with hmem
    · exact h.nodup
    · refine List.nodup_append.mpr ⟨h.nodup, List.nodup_singleton _, ?_⟩
      intro v hv w hw heq
      exact hmem (List.mem_singleton.mp hw ▸ heq ▸ hv)
  group_eq := by
    intro e he
    rw [group_append, group_singleton]
    rcases mem_insertBallot key h.nodup he with ⟨hne, hm⟩ | ⟨g, hg, rfl⟩ | ⟨hnew, rfl⟩
    · rw [if_neg (Ne.symm hne), List.append_nil]
      exact h.group_eq e hm
    · rw [if_pos rfl, ← h.group_eq _ hg]
    · have hempty : group key ballots (key a) = [] := by
        refine List.filter_eq_nil_iff.mpr fun b hb hkey => hnew ?_
        exact of_decide_eq_true hkey ▸ h.covers b hb
      rw [if_pos rfl, hempty, List.nil_append]
  covers := by
    intro b hb
    rw [insertBallot_keys]
    rcases List.mem_append.mp hb with hb | hb
    · split_ifs
      · exact h.covers b hb
      · exact List.mem_append_left _ (h.covers b hb)
    · obtain rfl := List.mem_singleton.mp hb
      split_ifs with hmem
      · exact hmem
      · exact List.mem_append_right _ (List.mem_singleton.mpr rfl)

theorem tally_isTally (ballots : List α) : IsTally key ballots (tally key ballots) := by
  induction ballots using List.reverseRecOn with
  | nil => exact ⟨.nil, by simp [tally], by simp⟩
  | append_singleton l a ih =>
    rw [tally, List.foldl_concat]
    exact insertBallot_isTally key ih a

theorem tally_cons (a : α) (l : List α) :
    ∃ g rest, tally key (a :: l) = (key a, g) :: rest := by
  induction l using List.reverseRecOn with
  | nil => exact ⟨[a], [], rfl⟩
  | append_singleton l b ih =>
    rcases ih with ⟨g, rest, h⟩
    rw [tally, ← List.cons_append, List.foldl_concat, ← tally, h, insertBallot]
    split_ifs
    · exact ⟨_, _, rfl⟩
    · exact ⟨_, _, rfl⟩

theorem mem_tally {ballots : List α} {e : β × List α} (h : e ∈ tally key ballots) :
    e.2 = group key ballots e.1 :=
  (tally_isTally key ballots).group_eq e h

theorem group_mem_tally {ballots : List α} {v : β} (h : group key ballots v ≠ []) :
    (v, group key ballots v) ∈ tally key ballots := by
  rcases List.exists_mem_of_ne_nil _ h with ⟨a, ha⟩
  rcases List.mem_filter.mp ha with ⟨ha, hkey⟩
  rcases List.mem_map.mp ((tally_isTally key ballots).covers a ha) with ⟨e, he, hfst⟩
  have hv : e.1 = v := hfst.trans (of_decide_eq_true hkey)
  have hgroup := mem_tally key he
  rw [hv] at hgroup
  rw [← hgroup, ← hv]
  exact he

theorem group_perm {l r : List α} (h : l.Perm r) (v : β) : (group key l v).Perm (group key r v) :=
  h.filter _

theorem group_length_add_le (ballots : List α) {v w : β} (h : w ≠ v) :
    (group key ballots w).length + (group key ballots v).length ≤ ballots.length := by
  rw [List.length_eq_length_filter_add (fun a => decide (key a = v)) (l := ballots), Nat.add_comm]
  refine Nat.add_le_add_left (List.Sublist.length_le (List.monotone_filter_right ballots ?_)) _
  intro a ha
  have hw := of_decide_eq_true ha
  simp [hw, h]

end Tally

def better (quorum : ℕ) (best : Option (β × List α)) (e : β × List α) : Option (β × List α) :=
  if quorum ≤ e.2.length ∧ (best.elim 0 fun b => b.2.length) < e.2.length then some e else best

def scan (quorum : ℕ) (t : List (β × List α)) : Option (β × List α) := t.foldl (better quorum) none

def IsBest (quorum : ℕ) (t : List (β × List α)) : Option (β × List α) → Prop
  | none => ∀ e ∈ t, e.2.length < quorum
  | some b => b ∈ t ∧ quorum ≤ b.2.length ∧ ∀ e ∈ t, e.2.length ≤ b.2.length

theorem better_isBest {quorum : ℕ} (hq : 0 < quorum) {t : List (β × List α)}
    {best : Option (β × List α)} (h : IsBest quorum t best) (e : β × List α) :
    IsBest quorum (t ++ [e]) (better quorum best e) := by
  unfold better
  cases best with
  | none =>
    split_ifs with hc
    · refine ⟨by simp, hc.1, ?_⟩
      rw [List.forall_mem_append, List.forall_mem_singleton]
      exact ⟨fun f hf => (h f hf).le.trans hc.1, le_rfl⟩
    · change ∀ f ∈ t ++ [e], f.2.length < quorum
      rw [List.forall_mem_append, List.forall_mem_singleton]
      refine ⟨h, ?_⟩
      by_contra hge
      exact hc ⟨not_lt.mp hge, lt_of_lt_of_le hq (not_lt.mp hge)⟩
  | some b =>
    rcases h with ⟨hb, hqb, hmax⟩
    split_ifs with hc
    · refine ⟨by simp, hc.1, ?_⟩
      rw [List.forall_mem_append, List.forall_mem_singleton]
      exact ⟨fun f hf => (hmax f hf).trans hc.2.le, le_rfl⟩
    · refine ⟨List.mem_append_left _ hb, hqb, ?_⟩
      rw [List.forall_mem_append, List.forall_mem_singleton]
      refine ⟨hmax, ?_⟩
      by_contra hgt
      exact hc ⟨hqb.trans (not_le.mp hgt).le, not_le.mp hgt⟩

theorem scan_isBest {quorum : ℕ} (hq : 0 < quorum) (t : List (β × List α)) :
    IsBest quorum t (scan quorum t) := by
  induction t using List.reverseRecOn with
  | nil => exact fun _ he => absurd he List.not_mem_nil
  | append_singleton t e ih =>
    rw [scan, List.foldl_concat]
    exact better_isBest hq ih e

theorem scan_cons {quorum : ℕ} {e : β × List α} {rest : List (β × List α)}
    (hq : 0 < quorum) (he : quorum ≤ e.2.length) (hmax : ∀ f ∈ rest, f.2.length ≤ e.2.length) :
    scan quorum (e :: rest) = some e := by
  have hfirst : better quorum none e = some e := if_pos ⟨he, lt_of_lt_of_le hq he⟩
  rw [scan, List.foldl_cons, hfirst]
  induction rest with
  | nil => rfl
  | cons f rest ih =>
    have hstay : better quorum (some e) f = some e :=
      if_neg fun hc => absurd hc.2 (not_lt.mpr (hmax f List.mem_cons_self))
    rw [List.foldl_cons, hstay]
    exact ih fun g hg => hmax g (List.mem_cons_of_mem f hg)

end VoteTally
