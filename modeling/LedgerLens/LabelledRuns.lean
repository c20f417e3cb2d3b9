import Mathlib.Algebra.BigOperators.Group.Finset.Basic
import Mathlib.Algebra.BigOperators.Ring.Finset
import Mathlib.Algebra.Order.BigOperators.Group.Finset
import Mathlib.Data.Fintype.Basic
import Mathlib.Data.List.Induction
import Mathlib.Data.List.Nodup

/-!
# Runs of a labelled step relation

A run lists the labels of its steps. What every step preserves, every run preserves, and a
run splits where its list of labels does. Where the states of a run have versions of their own, what
is read of one version is a value of it; where it is the run of several workers, what they have in
hand of one kind adds up to a load.
-/
namespace LabelledRuns

variable {State Label : Type*} {Step : State → Label → State → Prop}

inductive Run (Step : State → Label → State → Prop) : State → List Label → State → Prop where
  | refl (s : State) : Run Step s [] s
  | tail {s t u : State} {ls : List Label} {l : Label} :
      Run Step s ls t → Step t l u → Run Step s (ls ++ [l]) u

theorem Run.append {s t u : State} {ls ms : List Label} (h : Run Step s ls t)
    (h' : Run Step t ms u) : Run Step s (ls ++ ms) u := by
  induction h' with
  | refl => simpa using h
  | tail _ hstep ih =>
    rw [← List.append_assoc]
    exact ih.tail hstep

theorem Run.single {s t : State} {l : Label} (h : Step s l t) : Run Step s [l] t :=
  (Run.refl s).tail h

theorem run_nil_iff {s t : State} : Run Step s [] t ↔ s = t := by
  constructor
  · intro h
    generalize hl : ([] : List Label) = ls at h
    cases h with
    | refl => rfl
    | tail => simp at hl
  · rintro rfl
    exact .refl s

theorem run_concat_iff {s u : State} {ls : List Label} {l : Label} :
    Run Step s (ls ++ [l]) u ↔ ∃ t, Run Step s ls t ∧ Step t l u := by
  constructor
  · intro h
    generalize hl : ls ++ [l] = ms at h
    cases h with
    | refl => simp at hl
    | tail hrun hstep =>
      obtain ⟨rfl, hlast⟩ := List.append_inj' hl rfl
      obtain rfl : l = _ := by simpa using hlast
      exact ⟨_, hrun, hstep⟩
  · rintro ⟨t, hrun, hstep⟩
    exact hrun.tail hstep

theorem run_append_iff {s u : State} {ls ms : List Label} :
    Run Step s (ls ++ ms) u ↔ ∃ t, Run Step s ls t ∧ Run Step t ms u := by
  constructor
  · intro h
    induction ms using List.reverseRecOn generalizing u with
    | nil => exact ⟨u, by simpa using h, .refl u⟩
    | append_singleton ms l ih =>
      rw [← List.append_assoc, run_concat_iff] at h
      obtain ⟨t, hrun, hstep⟩ := h
      obtain ⟨r, hfirst, hsecond⟩ := ih hrun
      exact ⟨r, hfirst, hsecond.tail hstep⟩
  · rintro ⟨t, hfirst, hsecond⟩
    exact hfirst.append hsecond

theorem run_cons_iff {s u : State} {l : Label} {ls : List Label} :
    Run Step s (l :: ls) u ↔ ∃ t, Step s l t ∧ Run Step t ls u := by
  rw [← List.singleton_append, run_append_iff]
  constructor
  · rintro ⟨t, hfirst, hrest⟩
    obtain ⟨r, hr, hstep⟩ := run_concat_iff.mp (List.nil_append [l] ▸ hfirst)
    obtain rfl := run_nil_iff.mp hr
    exact ⟨t, hstep, hrest⟩
  · rintro ⟨t, hstep, hrest⟩
    exact ⟨t, .single hstep, hrest⟩

theorem Run.invariant {I : State → Prop} (keep : ∀ s l t, I s → Step s l t → I t) {s t : State}
    {ls : List Label} (h : Run Step s ls t) (start : I s) : I t := by
  induction h with
  | refl => exact start
  | tail _ hstep ih => exact keep _ _ _ ih hstep

theorem Run.mono {Step' : State → Label → State → Prop}
    (sub : ∀ s l t, Step s l t → Step' s l t) {s t : State} {ls : List Label}
    (h : Run Step s ls t) : Run Step' s ls t := by
  induction h with
  | refl => exact .refl _
  | tail _ hstep ih => exact ih.tail (sub _ _ _ hstep)

theorem Run.unique (det : ∀ s l t t', Step s l t → Step s l t' → t = t') {s t t' : State}
    {ls : List Label} (h : Run Step s ls t) (h' : Run Step s ls t') : t = t' := by
  induction h generalizing t' with
  | refl => exact run_nil_iff.mp h'
  | tail _ hstep ih =>
    obtain ⟨u, hu, hstep'⟩ := run_concat_iff.mp h'
    obtain rfl := ih hu
    exact det _ _ _ _ hstep hstep'

theorem Run.restrict {G : State → Label → Prop} {s t : State} {ls : List Label}
    (h : Run Step s ls t)
    (guard : ∀ before l after u, ls = before ++ l :: after → Run Step s before u → G u l) :
    Run (fun u l v => Step u l v ∧ G u l) s ls t := by
  induction h with
  | refl => exact .refl _
  | @tail t u ls l hrun hstep ih =>
    apply Run.tail
    · apply ih
      intro before l' after v hls hv
      exact guard before l' (after ++ [l]) v (by rw [hls]; simp) hv
    · exact ⟨hstep, guard ls l [] t rfl hrun⟩

theorem run_foldl (next : State → Label → State) (s : State) (ls : List Label) :
    Run (fun s l t => t = next s l) s ls (ls.foldl next s) := by
  induction ls generalizing s with
  | nil => exact .refl s
  | cons l ls ih => exact run_cons_iff.mpr ⟨next s l, rfl, ih (next s l)⟩

theorem run_iff_foldlM {next : State → Label → Option State} {guard : State → Label → Prop}
    [∀ s l, Decidable (guard s l)] {s t : State} {ls : List Label} :
    Run (fun s l t => next s l = some t ∧ guard s l) s ls t ↔
      ls.foldlM (fun s l => if guard s l then next s l else none) s = some t := by
  induction ls generalizing s with
  | nil => simp [run_nil_iff]
  | cons l ls ih =>
    rw [run_cons_iff, List.foldlM_cons]
    by_cases hguard : guard s l
    · cases next s l with
      | none => simp [hguard]
      | some r => simp [hguard, ih]
    · simp [hguard]

theorem run_of_foldlM {next : State → Label → Option State} {s t : State} {ls : List Label}
    (h : ls.foldlM next s = some t) : Run (fun s l t => next s l = some t) s ls t := by
  induction ls generalizing s with
  | nil => exact run_nil_iff.mpr (Option.some.inj h)
  | cons l ls ih =>
    rw [List.foldlM_cons] at h
    obtain ⟨r, hstep, hrest⟩ := Option.bind_eq_some_iff.mp h
    exact run_cons_iff.mpr ⟨r, hstep, ih hrest⟩

theorem guard_of_foldlM {next : State → Label → Option State} {guard : State → Label → Prop}
    [∀ s l, Decidable (guard s l)] {s t u : State} {before after : List Label} {l : Label}
    (h : (before ++ l :: after).foldlM (fun s l => if guard s l then next s l else none) s = some t)
    (hu : Run (fun s l t => next s l = some t) s before u) : guard u l := by
  obtain ⟨u', hu', hrest⟩ := run_append_iff.mp (run_iff_foldlM.mpr h)
  obtain ⟨_, hstep, -⟩ := run_cons_iff.mp hrest
  have hsame : u' = u := by
    apply (hu'.mono fun _ _ _ hstep => hstep.1).unique _ hu
    exact fun _ _ _ _ ht ht' => Option.some.inj (ht.symm.trans ht')
  rw [← hsame]
  exact hstep.2

section Along

variable (next : State → Label → State)

/-- Every step of the run satisfies `P` in the state that it starts from. -/
def Along (P : State → Label → Prop) : State → List Label → Prop
  | _, [] => True
  | s, l :: ls => P s l ∧ Along P (next s l) ls

variable {next} {P Q : State → Label → Prop}

instance decidableAlong [∀ s l, Decidable (P s l)] :
    ∀ (s : State) (ls : List Label), Decidable (Along next P s ls)
  | _, [] => isTrue trivial
  | s, l :: ls => @instDecidableAnd (P s l) (Along next P (next s l) ls) _
      (decidableAlong (next s l) ls)

theorem along_append_iff {s : State} {ls ms : List Label} : Along next P s (ls ++ ms) ↔
    Along next P s ls ∧ Along next P (ls.foldl next s) ms := by
  induction ls generalizing s with
  | nil => exact (iff_of_eq (true_and _)).symm
  | cons l ls ih => rw [List.cons_append, Along, Along, ih, and_assoc, List.foldl_cons]

theorem along_iff {s : State} {ls : List Label} : Along next P s ls ↔
    ∀ before l after, ls = before ++ l :: after → P (before.foldl next s) l := by
  constructor
  · rintro h before l after rfl
    exact (along_append_iff.mp h).2.1
  · intro h
    induction ls generalizing s with
    | nil => trivial
    | cons l ls ih =>
      refine ⟨h [] l ls rfl, ih fun before l' after hls => ?_⟩
      exact h (l :: before) l' after (by rw [hls]; rfl)

theorem along_iff_prefix {s : State} {ls : List Label} : Along next P s ls ↔
    ∀ before l, before ++ [l] <+: ls → P (before.foldl next s) l := by
  rw [along_iff]
  constructor
  · rintro h before l ⟨after, rfl⟩
    exact h before l after (List.append_assoc before [l] after)
  · rintro h before l after rfl
    exact h before l ⟨after, List.append_assoc before [l] after⟩

/-- Where an invariant makes two properties of steps one, and steps with the property keep it, whole
runs have the one if and only if they have the other. -/
theorem along_iff_along {I : State → Prop} {s : State} {ls : List Label} (start : I s)
    (keep : ∀ s l, I s → P s l → I (next s l)) (same : ∀ s l, I s → (P s l ↔ Q s l)) :
    Along next P s ls ↔ Along next Q s ls := by
  induction ls generalizing s with
  | nil => rfl
  | cons l ls ih =>
    rw [Along, Along, ← same s l start]
    exact and_congr_right fun h => ih (keep s l start h)

end Along

end LabelledRuns

namespace VersionedHistories

variable {D V ν : Type*}

def Between (history : List D) (f : D → V) (first last : ℕ) (v : V) : Prop :=
  ∃ j d, first ≤ j ∧ j ≤ last ∧ history[j]? = some d ∧ v = f d

variable {history : List D} {f : D → V} {version : D → ν} {first last first' last' i j : ℕ}
  {d d' : D} {v : V}

theorem getElem?_append_of_some (h : history[i]? = some d) (new : List D) :
    (history ++ new)[i]? = some d := by
  obtain ⟨hi, -⟩ := List.getElem?_eq_some_iff.mp h
  rw [List.getElem?_append_left hi, h]

theorem Between.append (h : Between history f first last v) (new : List D) :
    Between (history ++ new) f first last v := by
  obtain ⟨j, d, hfirst, hlast, hd, hv⟩ := h
  exact ⟨j, d, hfirst, hlast, getElem?_append_of_some hd new, hv⟩

theorem Between.widen (h : Between history f first last v) (hfirst : first' ≤ first)
    (hlast : last ≤ last') : Between history f first' last' v := by
  obtain ⟨j, d, hj, hj', hd, hv⟩ := h
  exact ⟨j, d, Nat.le_trans hfirst hj, Nat.le_trans hj' hlast, hd, hv⟩

theorem index_eq_of_version_eq (hversions : (history.map version).Nodup)
    (hd : history[i]? = some d) (hd' : history[j]? = some d') (h : version d = version d') :
    i = j := by
  obtain ⟨hi, -⟩ := List.getElem?_eq_some_iff.mp hd
  apply (List.getElem?_inj (by rwa [List.length_map]) hversions).mp
  rw [List.getElem?_map, List.getElem?_map, hd, hd', Option.map_some, Option.map_some, h]

theorem nodup_concat (hversions : (history.map version).Nodup)
    (h : ∀ d' ∈ history, version d' ≠ version d) : ((history ++ [d]).map version).Nodup := by
  rw [List.map_append, List.nodup_append]
  refine ⟨hversions, List.nodup_singleton _, ?_⟩
  intro x hx y hy
  obtain ⟨d', hd', rfl⟩ := List.mem_map.mp hx
  obtain rfl : y = version d := List.mem_singleton.mp hy
  exact h d' hd'

end VersionedHistories

namespace Workers

variable {W Work : Type*} [Fintype W]

def load (weight : Work → ℕ) (hand : W → Work) : ℕ := ∑ w, weight (hand w)

variable {weight : Work → ℕ} {hand : W → Work}

theorem load_eq_zero (h : ∀ w, weight (hand w) = 0) : load weight hand = 0 :=
  Finset.sum_eq_zero fun w _ => h w

theorem load_le_card (h : ∀ x, weight x ≤ 1) : load weight hand ≤ Fintype.card W := by
  calc load weight hand ≤ ∑ _w : W, 1 := Finset.sum_le_sum fun w _ => h (hand w)
    _ = Fintype.card W := by rw [← Finset.card_eq_sum_ones, Finset.card_univ]

theorem load_add (weight' : Work → ℕ) :
    load (fun x => weight x + weight' x) hand = load weight hand + load weight' hand :=
  Finset.sum_add_distrib

variable [DecidableEq W]

theorem load_update (weight : Work → ℕ) (hand : W → Work) (w : W) (x : Work) :
    load weight (Function.update hand w x) + weight (hand w) = load weight hand + weight x := by
  unfold load
  rw [← Finset.add_sum_erase _ _ (Finset.mem_univ w), ← Finset.add_sum_erase (Finset.univ)
    (fun v => weight (hand v)) (Finset.mem_univ w), Function.update_self]
  have hothers : ∑ v ∈ Finset.univ.erase w, weight (Function.update hand w x v) =
      ∑ v ∈ Finset.univ.erase w, weight (hand v) := by
    apply Finset.sum_congr rfl
    intro v hv
    rw [Function.update_of_ne (Finset.ne_of_mem_erase hv)]
  rw [hothers]
  omega

end Workers
