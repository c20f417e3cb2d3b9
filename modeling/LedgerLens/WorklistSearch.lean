import Mathlib.Data.List.Nodup
import Mathlib.Data.List.Perm.Subperm
import Mathlib.Logic.Relation

/-!
# Worklist search

A search that visits the neighbours of what it has visited, each once. It ends after as many steps
as there are nodes, and then it has visited what the starts lead to.
-/
namespace WorklistSearch

variable {α : Type*} [DecidableEq α]

def visit (s : List α × List α) (v : α) : List α × List α :=
  if v ∈ s.1 then s else (s.1 ++ [v], s.2 ++ [v])

def search (adj : α → List α) : ℕ → List α → List α → Option (List α)
  | _, visited, [] => some visited
  | 0, _, _ :: _ => none
  | fuel + 1, visited, v :: queue =>
    let (visited, queue) := (adj v).foldl visit (visited, queue)
    search adj fuel visited queue

def Leads (adj : α → List α) : α → α → Prop :=
  Relation.ReflTransGen fun a b => b ∈ adj a

omit [DecidableEq α] in
theorem leads_subset {adj : α → List α} {nodes : List α} (hadj : ∀ v ∈ nodes, adj v ⊆ nodes)
    {a b : α} (ha : a ∈ nodes) (h : Leads adj a b) : b ∈ nodes := by
  induction h with
  | refl => exact ha
  | tail _ hstep ih => exact hadj _ ih hstep

/-- What a search knows between two steps. -/
structure Searching (adj : α → List α) (nodes start visited queue : List α) : Prop where
  nodup : visited.Nodup
  pending : queue ⊆ visited
  within : visited ⊆ nodes
  starts : start ⊆ visited
  sound : ∀ v ∈ visited, ∃ s ∈ start, Leads adj s v
  closed : ∀ v ∈ visited, v ∉ queue → adj v ⊆ visited

section

variable {adj : α → List α} {nodes start visited queue vs : List α} {v : α}

theorem visit_spec (s : List α × List α) (vs : List α) :
    ∃ new, vs.foldl visit s = (s.1 ++ new, s.2 ++ new) ∧ new.Nodup ∧
      ∀ v, v ∈ new ↔ v ∈ vs ∧ v ∉ s.1 := by
  induction vs generalizing s with
  | nil => exact ⟨[], by simp, .nil, by simp⟩
  | cons v vs ih =>
    rw [List.foldl_cons, visit]
    split_ifs with hold
    · obtain ⟨new, heq, hnodup, hmem⟩ := ih s
      refine ⟨new, heq, hnodup, fun w => ?_⟩
      rw [hmem, List.mem_cons]
      constructor
      · exact fun h => ⟨.inr h.1, h.2⟩
      · rintro ⟨rfl | hw, hnew⟩
        · exact absurd hold hnew
        · exact ⟨hw, hnew⟩
    · obtain ⟨new, heq, hnodup, hmem⟩ := ih (s.1 ++ [v], s.2 ++ [v])
      have hfresh : v ∉ new := fun hv => ((hmem v).mp hv).2 (List.mem_append_right _ (by simp))
      refine ⟨v :: new, ?_, List.nodup_cons.mpr ⟨hfresh, hnodup⟩, fun w => ?_⟩
      · rw [heq, List.append_assoc, List.append_assoc]
        rfl
      · rw [List.mem_cons, hmem, List.mem_cons, List.mem_append, List.mem_singleton, not_or]
        constructor
        · rintro (rfl | ⟨hw, hnew, -⟩)
          · exact ⟨.inl rfl, hold⟩
          · exact ⟨.inr hw, hnew⟩
        · rintro ⟨rfl | hw, hnew⟩
          · exact .inl rfl
          · exact (eq_or_ne w v).imp id fun hne => ⟨hw, hnew, hne⟩

omit [DecidableEq α] in
theorem Searching.initial (hnodup : start.Nodup) (hstart : start ⊆ nodes) :
    Searching adj nodes start start start where
  nodup := hnodup
  pending := List.Subset.refl _
  within := hstart
  starts := List.Subset.refl _
  sound v hv := ⟨v, hv, .refl⟩
  closed _ hv hqueue := absurd hv hqueue

/-- A step takes one node out of the queue and puts new ones in both lists. -/
theorem Searching.step (h : Searching adj nodes start visited (v :: queue))
    (hadj : adj v ⊆ nodes) :
    ∃ new, (adj v).foldl visit (visited, queue) = (visited ++ new, queue ++ new) ∧
      Searching adj nodes start (visited ++ new) (queue ++ new) := by
  obtain ⟨new, heq, hnodup, hmem⟩ := visit_spec (visited, queue) (adj v)
  have hv : v ∈ visited := h.pending List.mem_cons_self
  refine ⟨new, heq, ?_, ?_, ?_, ?_, ?_, ?_⟩
  · exact List.nodup_append'.mpr
      ⟨h.nodup, hnodup, fun w hw hnew => ((hmem w).mp hnew).2 hw⟩
  · intro w hw
    rcases List.mem_append.mp hw with hw | hw
    · exact List.mem_append_left _ (h.pending (List.mem_cons_of_mem _ hw))
    · exact List.mem_append_right _ hw
  · intro w hw
    rcases List.mem_append.mp hw with hw | hw
    · exact h.within hw
    · exact hadj ((hmem w).mp hw).1
  · exact fun w hw => List.mem_append_left _ (h.starts hw)
  · intro w hw
    rcases List.mem_append.mp hw with hw | hw
    · exact h.sound w hw
    · obtain ⟨s, hs, hleads⟩ := h.sound v hv
      exact ⟨s, hs, hleads.tail ((hmem w).mp hw).1⟩
  · intro w hw hqueue u hu
    rw [List.mem_append, not_or] at hqueue
    rw [List.mem_append]
    have hold : w ∈ visited := (List.mem_append.mp hw).resolve_right hqueue.2
    by_cases hwv : w = v
    · subst hwv
      by_cases hvisited : u ∈ visited
      · exact .inl hvisited
      · exact .inr ((hmem u).mpr ⟨hu, hvisited⟩)
    · refine .inl (h.closed w hold (fun hcons => ?_) hu)
      exact (List.mem_cons.mp hcons).elim hwv hqueue.1

theorem Searching.search {fuel : ℕ} (h : Searching adj nodes start visited queue)
    (hadj : ∀ v ∈ nodes, adj v ⊆ nodes)
    (hfuel : nodes.length + queue.length ≤ fuel + visited.length) :
    ∃ visited', WorklistSearch.search adj fuel visited queue = some visited' ∧
      Searching adj nodes start visited' [] := by
  induction fuel generalizing visited queue with
  | zero =>
    cases queue with
    | nil => exact ⟨visited, rfl, h⟩
    | cons v queue =>
      have hroom := (h.nodup.subperm h.within).length_le
      rw [List.length_cons] at hfuel
      omega
  | succ fuel ih =>
    cases queue with
    | nil => exact ⟨visited, rfl, h⟩
    | cons v queue =>
      obtain ⟨new, heq, hnext⟩ := h.step (hadj v (h.within (h.pending List.mem_cons_self)))
      rw [WorklistSearch.search, heq]
      refine ih hnext ?_
      rw [List.length_append, List.length_append]
      rw [List.length_cons] at hfuel
      omega

end

theorem search_exact {adj : α → List α} {nodes start : List α} {fuel : ℕ}
    (hnodup : start.Nodup) (hstart : start ⊆ nodes) (hadj : ∀ v ∈ nodes, adj v ⊆ nodes)
    (hfuel : nodes.length ≤ fuel) :
    ∃ visited, search adj fuel start start = some visited ∧ visited.Nodup ∧
      ∀ v, v ∈ visited ↔ ∃ s ∈ start, Leads adj s v := by
  obtain ⟨visited, hsearch, h⟩ :=
    (Searching.initial hnodup hstart).search hadj (Nat.add_le_add_right hfuel _)
  refine ⟨visited, hsearch, h.nodup, fun v => ⟨h.sound v, ?_⟩⟩
  rintro ⟨s, hs, hleads⟩
  induction hleads with
  | refl => exact h.starts hs
  | tail _ hstep ih => exact h.closed _ ih List.not_mem_nil hstep

end WorklistSearch
