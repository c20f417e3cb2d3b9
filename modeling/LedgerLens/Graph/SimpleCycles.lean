import LedgerLens.Graph.StrongComponents
import Mathlib.Data.List.Cycle

/-!
# Simple cycles

Cycles that visit no node twice, up to rotation. The nodes of a cycle are mutually reachable.
-/
namespace SimpleCycles

open StrongComponents

variable {V V' : Type*} {Edge : V → V → Prop} {Edge' : V' → V' → Prop} {l t : List V} {a b : V}

/-- The edges of the cycle lead from each node to the next and from the last to the first. -/
structure SimpleCycle (Edge : V → V → Prop) (l : List V) : Prop where
  nodup : l.Nodup
  chain : Cycle.Chain Edge (l : Cycle V)

def cycleEdges (l : List V) : List (V × V) := l.zip (l.rotate 1)

theorem mem_of_mem_cycleEdges {e : V × V} (he : e ∈ cycleEdges l) : e.1 ∈ l ∧ e.2 ∈ l := by
  obtain ⟨hfirst, hsecond⟩ := List.of_mem_zip he
  exact ⟨hfirst, List.mem_rotate.mp hsecond⟩

theorem length_cycleEdges (l : List V) : (cycleEdges l).length = l.length := by
  rw [cycleEdges, List.length_zip, List.length_rotate, min_self]

theorem cycleEdges_perm {l' : List V} (h : l ~r l') : (cycleEdges l).Perm (cycleEdges l') := by
  obtain ⟨n, rfl⟩ := h
  have hrotate : cycleEdges (l.rotate n) = (cycleEdges l).rotate n := by
    rw [cycleEdges, cycleEdges, List.zip_eq_zipWith, List.zip_eq_zipWith,
      List.zipWith_rotate_distrib _ _ _ _ (List.length_rotate _ _).symm, List.rotate_rotate,
      List.rotate_rotate, Nat.add_comm]
  rw [hrotate]
  exact (List.rotate_perm _ n).symm

theorem chain_iff : Cycle.Chain Edge (l : Cycle V) ↔ ∀ e ∈ cycleEdges l, Edge e.1 e.2 := by
  cases l with
  | nil => exact iff_of_true trivial fun _ h => absurd h List.not_mem_nil
  | cons a t =>
    have hrotate : (a :: t).rotate 1 = t ++ [a] := by
      rw [List.rotate_cons_succ, List.rotate_zero]
    rw [Cycle.chain_coe_cons, ← List.cons_append, List.isChain_cons_append_singleton_iff_forall₂,
      List.forall₂_iff_zip, cycleEdges, hrotate]
    refine (and_iff_right ?_).trans ⟨fun h e he => h he, fun h a b he => h (a, b) he⟩
    rw [List.length_cons, List.length_append, List.length_singleton]

theorem reaches_of_isChain (h : (a :: l).IsChain Edge) : ∀ b ∈ a :: l, Reaches Edge a b := by
  induction l generalizing a with
  | nil =>
    intro b hb
    rw [List.mem_singleton.mp hb]
  | cons c l ih =>
    intro b hb
    obtain ⟨hedge, hchain⟩ := List.isChain_cons_cons.mp h
    rcases List.mem_cons.mp hb with rfl | hb
    · exact .refl
    · exact .head hedge (ih hchain b hb)

namespace SimpleCycle

theorem mono {Edge' : V → V → Prop} (hsub : ∀ a b, Edge a b → Edge' a b)
    (h : SimpleCycle Edge l) : SimpleCycle Edge' l :=
  ⟨h.nodup, h.chain.imp hsub⟩

theorem map (h : SimpleCycle Edge l) (f : V → V') (hinj : ∀ a ∈ l, ∀ b ∈ l, f a = f b → a = b)
    (hedge : ∀ a b, Edge a b → Edge' (f a) (f b)) : SimpleCycle Edge' (l.map f) where
  nodup := h.nodup.map_on hinj
  chain := by
    rw [← Cycle.map_coe, Cycle.chain_map]
    exact h.chain.imp hedge

theorem rotate_to (h : SimpleCycle Edge l) (ha : a ∈ l) :
    ∃ t, (a :: t) ~r l ∧ SimpleCycle Edge (a :: t) := by
  obtain ⟨front, back, rfl⟩ := List.append_of_mem ha
  have hrotated : (a :: (back ++ front)).IsRotated (front ++ a :: back) := by
    rw [← List.cons_append]
    exact List.isRotated_append
  refine ⟨back ++ front, hrotated, hrotated.nodup_iff.mpr h.nodup, ?_⟩
  rw [show ((a :: (back ++ front) : List V) : Cycle V) = (front ++ a :: back : List V) from
    Cycle.coe_eq_coe.mpr hrotated]
  exact h.chain

theorem exists_edge (h : SimpleCycle Edge l) (ha : a ∈ l) : ∃ b, Edge a b := by
  obtain ⟨t, -, hcycle⟩ := h.rotate_to ha
  have hchain := (Cycle.chain_coe_cons Edge a t).mp hcycle.chain
  cases t with
  | nil => exact ⟨a, (List.isChain_cons_cons.mp hchain).1⟩
  | cons b t => exact ⟨b, (List.isChain_cons_cons.mp hchain).1⟩

theorem mutual_of_mem (h : SimpleCycle Edge l) (ha : a ∈ l) (hb : b ∈ l) : Mutual Edge a b := by
  have reach {a b : V} (ha : a ∈ l) (hb : b ∈ l) : Reaches Edge a b := by
    obtain ⟨t, hrotated, hcycle⟩ := h.rotate_to ha
    have hchain := (Cycle.chain_coe_cons Edge a t).mp hcycle.chain
    refine reaches_of_isChain hchain b ?_
    rcases List.mem_cons.mp (hrotated.mem_iff.mpr hb) with rfl | hmem
    · exact List.mem_cons_self
    · exact List.mem_cons_of_mem _ (List.mem_append_left _ hmem)
  exact ⟨reach ha hb, reach hb ha⟩

theorem cluster {size : ℕ} (h : SimpleCycle Edge l) (hne : l ≠ []) (hsize : size ≤ l.length) :
    Cluster Edge size l where
  nodup := h.nodup
  large := hsize
  linked _ hu _ hv := h.mutual_of_mem hu hv
  touched := by
    obtain ⟨a, ha⟩ := List.exists_mem_of_ne_nil l hne
    obtain ⟨b, hab⟩ := h.exists_edge ha
    exact ⟨a, ha, b, .inl hab⟩

theorem ne_nil_of_two_le (htwo : 2 ≤ l.length) : l ≠ [] :=
  List.ne_nil_of_length_pos (Nat.zero_lt_two.trans_le htwo)

theorem two_edges (h : SimpleCycle Edge l) (hlength : 2 ≤ l.length) :
    ∃ a b c d, a ≠ c ∧ Edge a b ∧ Edge c d :=
  (h.cluster (ne_nil_of_two_le hlength) hlength).two_edges

end SimpleCycle

end SimpleCycles
