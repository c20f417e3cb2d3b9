import Mathlib.Data.Finset.Basic
import Mathlib.Data.List.Nodup
import Mathlib.Logic.Relation

/-!
# Strongly connected components

Mutual reachability in a directed graph, and lists of components that partition its nodes.
-/
namespace StrongComponents

variable {V : Type*} {Edge Edge' : V → V → Prop} {u v w : V}

abbrev Reaches (Edge : V → V → Prop) : V → V → Prop := Relation.ReflTransGen Edge

def Mutual (Edge : V → V → Prop) (u v : V) : Prop := Reaches Edge u v ∧ Reaches Edge v u

theorem Mutual.refl (v : V) : Mutual Edge v v := ⟨.refl, .refl⟩

theorem Mutual.symm (h : Mutual Edge u v) : Mutual Edge v u := ⟨h.2, h.1⟩

theorem Mutual.trans (huv : Mutual Edge u v) (hvw : Mutual Edge v w) : Mutual Edge u w :=
  ⟨huv.1.trans hvw.1, hvw.2.trans huv.2⟩

theorem Reaches.mono (hsub : ∀ a b, Edge a b → Edge' a b) (h : Reaches Edge u v) :
    Reaches Edge' u v :=
  Relation.ReflTransGen.mono hsub _ _ h

theorem Mutual.mono (hsub : ∀ a b, Edge a b → Edge' a b) (h : Mutual Edge u v) :
    Mutual Edge' u v :=
  ⟨Reaches.mono hsub h.1, Reaches.mono hsub h.2⟩

theorem Mutual.lift {V' : Type*} {Edge' : V' → V' → Prop} (f : V → V')
    (hedge : ∀ a b, Edge a b → Edge' (f a) (f b)) (h : Mutual Edge u v) :
    Mutual Edge' (f u) (f v) :=
  ⟨h.1.lift f hedge, h.2.lift f hedge⟩

theorem mem_of_reaches {S : V → Prop} (hclosed : ∀ a, S a → ∀ b, Edge a b → S b) (hu : S u)
    (h : Reaches Edge u v) : S v := by
  induction h with
  | refl => exact hu
  | tail _ hedge ih => exact hclosed _ ih _ hedge

/-- The lists are components, disjoint and without repetition. -/
structure Components (Edge : V → V → Prop) (comps : List (List V)) : Prop where
  nodup : comps.flatten.Nodup
  nonempty : ∀ c ∈ comps, c ≠ []
  together : ∀ c ∈ comps, ∀ u ∈ c, ∀ w, w ∈ c ↔ Mutual Edge u w

namespace Components

variable {comps : List (List V)}

theorem nil : Components Edge [] where
  nodup := .nil
  nonempty _ h := absurd h List.not_mem_nil
  together _ h := absurd h List.not_mem_nil

theorem nodup_of_mem (h : Components Edge comps) {c : List V} (hc : c ∈ comps) : c.Nodup :=
  (List.nodup_flatten.mp h.nodup).1 c hc

theorem concat (h : Components Edge comps) {c : List V} (hne : c ≠ [])
    (hnodup : c.Nodup) (hfresh : ∀ u ∈ c, u ∉ comps.flatten)
    (hc : ∀ u ∈ c, ∀ w, w ∈ c ↔ Mutual Edge u w) : Components Edge (comps ++ [c]) where
  nodup := by
    rw [List.flatten_concat, List.nodup_append]
    refine ⟨h.nodup, hnodup, ?_⟩
    rintro a ha b hb rfl
    exact hfresh a hb ha
  nonempty := by
    intro d hd
    rcases List.mem_append.mp hd with hd | hd
    · exact h.nonempty d hd
    · exact List.mem_singleton.mp hd ▸ hne
  together := by
    intro d hd
    rcases List.mem_append.mp hd with hd | hd
    · exact h.together d hd
    · obtain rfl := List.mem_singleton.mp hd
      exact hc

/-- A set of mutually reachable nodes lies in the component of each of them. -/
theorem subset_of_mutual (h : Components Edge comps) {c : List V} (hc : c ∈ comps) (hv : v ∈ c)
    {S : V → Prop} (hS : ∀ w, S w → Mutual Edge v w) : ∀ w, S w → w ∈ c :=
  fun w hw => (h.together c hc v hv w).mpr (hS w hw)

end Components

structure IsComponent (Edge : V → V → Prop) (C : Finset V) : Prop where
  nonempty : C.Nonempty
  touched : ∀ u ∈ C, ∃ v, Edge u v ∨ Edge v u
  together : ∀ u ∈ C, ∀ w, w ∈ C ↔ Mutual Edge u w

namespace IsComponent

variable {C D : Finset V}

theorem ext (hC : IsComponent Edge C) (hD : IsComponent Edge D) (hu : u ∈ C) (hu' : u ∈ D) :
    C = D := by
  ext w
  rw [hC.together u hu, hD.together u hu']

theorem of_hub {hub spoke : V} (hhub : hub ∈ C) (hspoke : spoke ∈ C) (hne : spoke ≠ hub)
    (hspokes : ∀ u ∈ C, u ≠ hub → Edge u hub ∧ Edge hub u)
    (hclosed : ∀ a b, Edge a b → b ∈ C) : IsComponent Edge C where
  nonempty := ⟨hub, hhub⟩
  touched u hu := by
    by_cases h : u = hub
    · exact ⟨spoke, .inr (h ▸ (hspokes spoke hspoke hne).1)⟩
    · exact ⟨hub, .inl (hspokes u hu h).1⟩
  together u hu w := by
    have hmutual (v : V) (hv : v ∈ C) : Mutual Edge v hub := by
      by_cases h : v = hub
      · exact h ▸ .refl v
      · exact ⟨.single (hspokes v hv h).1, .single (hspokes v hv h).2⟩
    refine ⟨fun hw => (hmutual u hu).trans (hmutual w hw).symm, fun h => ?_⟩
    exact mem_of_reaches (fun a _ b hab => hclosed a b hab) hu h.1

/-- Every node on an edge is in the component of the nodes mutually reachable with it. -/
theorem subset_of_mem (hsub : ∀ a b, Edge a b → Edge' a b) (hC : IsComponent Edge C)
    (hD : IsComponent Edge' D) (hu : u ∈ C) (hu' : u ∈ D) : C ⊆ D := fun w hw =>
  (hD.together u hu' w).mpr (((hC.together u hu w).mp hw).mono hsub)

theorem exists_of_touched {nodes : Finset V} (hnodes : ∀ a b, Edge a b → a ∈ nodes ∧ b ∈ nodes)
    (hu : ∃ v, Edge u v ∨ Edge v u) : ∃ C, IsComponent Edge C ∧ u ∈ C := by
  classical
  have htouched {w : V} (hw : Mutual Edge u w) : ∃ v, Edge w v ∨ Edge v w := by
    obtain rfl | ⟨v, hwv, -⟩ := hw.2.cases_head
    · exact hu
    · exact ⟨v, .inl hwv⟩
  have hmem {w : V} : w ∈ nodes.filter (Mutual Edge u) ↔ Mutual Edge u w := by
    rw [Finset.mem_filter]
    refine ⟨And.right, fun hw => ⟨?_, hw⟩⟩
    obtain ⟨v, hwv | hvw⟩ := htouched hw
    · exact (hnodes w v hwv).1
    · exact (hnodes v w hvw).2
  refine ⟨nodes.filter (Mutual Edge u), ⟨⟨u, hmem.mpr (.refl u)⟩, fun w hw => ?_, fun w hw v => ?_⟩,
    hmem.mpr (.refl u)⟩
  · exact htouched (hmem.mp hw)
  · rw [hmem]
    exact ⟨(hmem.mp hw).symm.trans, (hmem.mp hw).trans⟩

end IsComponent

/-- The nodes at most so many edges away from a set, whichever way the edges point. -/
def Within (Edge : V → V → Prop) (S : V → Prop) : ℕ → V → Prop
  | 0, v => S v
  | hops + 1, v => Within Edge S hops v ∨ ∃ u, Within Edge S hops u ∧ (Edge u v ∨ Edge v u)

theorem within_of_mem {S : V → Prop} (h : S v) (hops : ℕ) : Within Edge S hops v := by
  induction hops with
  | zero => exact h
  | succ hops ih => exact .inl ih

theorem exists_of_within {S : V → Prop} {hops : ℕ} (h : Within Edge S hops v) : ∃ u, S u := by
  induction hops generalizing v with
  | zero => exact ⟨v, h⟩
  | succ hops ih =>
    rcases h with h | ⟨u, h, -⟩
    · exact ih h
    · exact ih h

theorem within_of_adjacent {S : V → Prop} (h : S u) (hedge : Edge u v ∨ Edge v u) (hops : ℕ) :
    Within Edge S (hops + 1) v :=
  .inr ⟨u, within_of_mem h hops, hedge⟩

/-- Mutually reachable nodes, `size` or more of them, one of which is on an edge. -/
structure Cluster (Edge : V → V → Prop) (size : ℕ) (l : List V) : Prop where
  nodup : l.Nodup
  large : size ≤ l.length
  linked : ∀ u ∈ l, ∀ v ∈ l, Mutual Edge u v
  touched : ∃ u ∈ l, ∃ v, Edge u v ∨ Edge v u

namespace Cluster

variable {size : ℕ} {l : List V}

theorem map {V' : Type*} {Edge' : V' → V' → Prop} (h : Cluster Edge size l) (f : V → V')
    (hinj : ∀ a ∈ l, ∀ b ∈ l, f a = f b → a = b) (hedge : ∀ a b, Edge a b → Edge' (f a) (f b)) :
    Cluster Edge' size (l.map f) where
  nodup := h.nodup.map_on hinj
  large := by rw [List.length_map]; exact h.large
  linked := by
    intro u hu v hv
    obtain ⟨a, ha, rfl⟩ := List.mem_map.mp hu
    obtain ⟨b, hb, rfl⟩ := List.mem_map.mp hv
    exact (h.linked a ha b hb).lift f hedge
  touched := by
    obtain ⟨u, hu, v, huv⟩ := h.touched
    exact ⟨f u, List.mem_map_of_mem hu, f v, huv.imp (hedge u v) (hedge v u)⟩

theorem mono (h : Cluster Edge size l) (hsub : ∀ a b, Edge a b → Edge' a b) :
    Cluster Edge' size l where
  nodup := h.nodup
  large := h.large
  linked u hu v hv := (h.linked u hu v hv).mono hsub
  touched := by
    obtain ⟨u, hu, v, huv⟩ := h.touched
    exact ⟨u, hu, v, huv.imp (hsub u v) (hsub v u)⟩

theorem touched_of_mem (h : Cluster Edge size l) (hv : v ∈ l) : ∃ w, Edge v w ∨ Edge w v := by
  obtain ⟨u, hu, htouched⟩ := h.touched
  obtain rfl | ⟨w, hvw, -⟩ := (h.linked v hv u hu).1.cases_head
  · exact htouched
  · exact ⟨w, .inl hvw⟩

theorem exists_edge (h : Cluster Edge size l) : ∃ a b, Edge a b := by
  obtain ⟨u, -, v, huv | hvu⟩ := h.touched
  · exact ⟨u, v, huv⟩
  · exact ⟨v, u, hvu⟩

theorem two_edges (h : Cluster Edge 2 l) : ∃ a b c d, a ≠ c ∧ Edge a b ∧ Edge c d := by
  have leaves {u v : V} (hne : u ≠ v) (hreach : Reaches Edge u v) : ∃ w, Edge u w := by
    obtain rfl | ⟨w, huw, -⟩ := hreach.cases_head
    · exact absurd rfl hne
    · exact ⟨w, huw⟩
  have hlarge := h.large
  have hnodup := h.nodup
  match l with
  | [] | [_] => simp at hlarge
  | u :: v :: _ =>
    have hne : u ≠ v := by
      rintro rfl
      exact (List.nodup_cons.mp hnodup).1 List.mem_cons_self
    obtain ⟨huv, hvu⟩ := h.linked u List.mem_cons_self v (List.mem_cons_of_mem _ List.mem_cons_self)
    obtain ⟨b, hb⟩ := leaves hne huv
    obtain ⟨d, hd⟩ := leaves (Ne.symm hne) hvu
    exact ⟨u, b, v, d, hne, hb, hd⟩

end Cluster

end StrongComponents
