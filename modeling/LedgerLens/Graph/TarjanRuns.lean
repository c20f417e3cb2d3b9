import LedgerLens.Graph.TarjanScc
import LedgerLens.FallibleRuns
import Mathlib.Data.List.Count

/-!
# Tarjan's algorithm, whole runs

The loops of `IterativeTarjanSCC.run` with no bound on their passes. They end on every adjacency
dictionary, and the lists they return are its strongly connected components.
-/
namespace TarjanRuns

open StrongComponents TarjanScc WhileLoops

variable {V : Type*} [DecidableEq V] {succ : V → List V} {s t u : State V}

/-- A pass of `while work_stack`. The nodes of the work stack have their numbers, and the stack
holds the node that it is popped down to, so that no lookup and no pop raises. -/
structure Pass (succ : V → List V) (s t : State V) : Prop where
  numbered : ∀ frame ∈ s.work, s.index frame.1 ≠ none
  held : ∀ frame ∈ s.work, frame.1 ∈ s.stack
  next : t = step succ s

inductive Searches (succ : V → List V) : List V → State V → State V → Prop where
  | nil {s : State V} : Searches succ [] s s
  | known {v : V} {roots : List V} {s t : State V} :
    s.index v ≠ none → Searches succ roots s t → Searches succ (v :: roots) s t
  | fresh {v : V} {roots : List V} {s t u : State V} :
    s.index v = none → While (·.work ≠ []) (Pass succ) (visit succ v s) t →
    Searches succ roots t u → Searches succ (v :: roots) s u

/-- `run` returns the given lists. -/
def Returns (graph : List (V × List V)) (out : List (List V)) : Prop :=
  ∃ s, Searches (neighbours graph) (graph.map Prod.fst) State.init s ∧ s.sccs = out

theorem Pass.unique (h : Pass succ s t) (h' : Pass succ s u) : t = u := h.next.trans h'.next.symm

theorem Searches.unique {roots : List V} (h : Searches succ roots s t)
    (h' : Searches succ roots s u) : t = u := by
  induction h with
  | nil =>
    cases h'
    rfl
  | known hknown _ ih =>
    cases h' with
    | known _ hrest => exact ih hrest
    | fresh hfresh => exact absurd hfresh hknown
  | fresh hfresh hloop _ ih =>
    cases h' with
    | known hknown => exact absurd hfresh hknown
    | fresh _ hloop' hrest =>
      exact ih (hloop.unique (fun _ _ _ hpass hpass' => hpass.unique hpass') hloop' ▸ hrest)

omit [DecidableEq V] in
theorem Layers.mem_stack {index : V → Option ℕ} {lowlink : V → ℕ} {done : V → Prop}
    {child : Option V} {work : List (V × List V)} {stack : List V}
    (h : Layers succ index lowlink done child work stack) : ∀ frame ∈ work, frame.1 ∈ stack := by
  induction h with
  | nil => nofun
  | cons _ _ _ ih =>
    intro frame hframe
    rcases List.mem_cons.mp hframe with rfl | hframe
    · exact List.mem_append_right _ List.mem_cons_self
    · exact List.mem_append_right _ (List.mem_cons_of_mem _ (ih frame hframe))

theorem pass_step {child : Option V} (h : Invariant succ child s) : Pass succ s (step succ s) where
  numbered frame hframe := (h.visited frame.1).mpr (.inl (Layers.mem_stack h.layers frame hframe))
  held := Layers.mem_stack h.layers
  next := rfl

theorem while_loop {fuel : ℕ} (h : Invariant succ none s) (hidle : (loop succ fuel s).work = []) :
    While (·.work ≠ []) (Pass succ) s (loop succ fuel s) := by
  induction fuel generalizing s with
  | zero => exact .stop (not_not.mpr hidle)
  | succ fuel ih =>
    rw [loop] at hidle ⊢
    split_ifs at hidle ⊢ with hwork
    · exact .stop (not_not.mpr hwork)
    · exact .pass hwork (pass_step h) (ih h.step hidle)

theorem searches_searchAll {nodes roots : List V} {fuel : ℕ} (hnodup : nodes.Nodup)
    (hclosed : Closed succ nodes) (hfuel : totalPasses succ nodes ≤ fuel)
    (hroots : ∀ v ∈ roots, v ∈ nodes) (h : Searched succ nodes s) :
    Searches succ roots s (searchAll succ fuel roots s) := by
  induction roots generalizing s with
  | nil => exact .nil
  | cons v roots ih =>
    have hrest := fun u hu => hroots u (List.mem_cons_of_mem _ hu)
    simp only [searchAll, List.foldl_cons] at ih ⊢
    by_cases hindex : s.index v = none
    · rw [if_pos hindex]
      have hsearched := h.strongconnect hnodup hclosed hfuel (hroots v List.mem_cons_self) hindex
      exact .fresh hindex (while_loop (h.visit hindex) hsearched.idle) (ih hrest hsearched)
    · rw [if_neg hindex]
      exact .known hindex (ih hrest h)

section

variable {graph : List (V × List V)}

/-- `run` ends on every dictionary, with one outcome. -/
theorem returns_iff {out : List (List V)} : Returns graph out ↔ out = run graph := by
  have hnodes : (nodesOf graph).Nodup := List.nodup_dedup _
  have hrun := searches_searchAll hnodes (fun u _ _ h => mem_nodesOf.mpr (.inr ⟨u, h⟩)) le_rfl
    (fun _ hv => mem_nodesOf.mpr (.inl hv)) (@Searched.init _ (neighbours graph) _)
  constructor
  · rintro ⟨s, hsearches, rfl⟩
    rw [hsearches.unique hrun, run]
  · rintro rfl
    exact ⟨_, hrun, rfl⟩

/-- A key, or what an edge leads to. -/
def IsNode (graph : List (V × List V)) (v : V) : Prop :=
  v ∈ graph.map Prod.fst ∨ ∃ u, v ∈ neighbours graph u

theorem IsNode.reaches {u v : V} (hu : IsNode graph u)
    (h : Reaches (Edge (neighbours graph)) u v) : IsNode graph v :=
  mem_of_reaches (fun a _ _ hedge => .inr ⟨a, hedge⟩) hu h

end

/-- On every adjacency dictionary the search returns, and what it returns are the strongly
connected components: disjoint lists, each node once, and two nodes in one list where each reaches
the other. -/
theorem returns_components (graph : List (V × List V)) :
    (∃ out, Returns graph out) ∧ ∀ out, Returns graph out →
      out.Pairwise List.Disjoint ∧ out.flatten.Nodup ∧ [] ∉ out ∧
      (∀ v, v ∈ out.flatten ↔ IsNode graph v) ∧
      ∀ u v, (∃ c ∈ out, u ∈ c ∧ v ∈ c) ↔
        IsNode graph u ∧ IsNode graph v ∧ Reaches (Edge (neighbours graph)) u v ∧
          Reaches (Edge (neighbours graph)) v u := by
  refine ⟨⟨run graph, returns_iff.mpr rfl⟩, ?_⟩
  intro out hreturns
  obtain rfl := returns_iff.mp hreturns
  have hcomps := run_components graph
  refine ⟨(List.nodup_flatten.mp hcomps.nodup).2, hcomps.nodup, fun h => hcomps.nonempty [] h rfl,
    fun _ => mem_run, fun u v => ⟨?_, ?_⟩⟩
  · rintro ⟨c, hc, hu, hv⟩
    have hmutual := (hcomps.together c hc u hu v).mp hv
    have hnode : IsNode graph u := mem_run.mp (List.mem_flatten.mpr ⟨c, hc, hu⟩)
    exact ⟨hnode, hnode.reaches hmutual.1, hmutual⟩
  · rintro ⟨hnode, -, hmutual⟩
    obtain ⟨c, hc, hu⟩ := List.mem_flatten.mp (mem_run.mpr hnode)
    exact ⟨c, hc, hu, (hcomps.together c hc u hu v).mpr hmutual⟩

end TarjanRuns
