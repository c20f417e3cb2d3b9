import LedgerLens.Graph.StrongComponents
import Mathlib.Algebra.GroupWithZero.Nat
import Mathlib.Algebra.Order.BigOperators.Group.List
import Mathlib.Algebra.Order.Group.Nat
import Mathlib.Data.List.Dedup
import Mathlib.Logic.Function.Basic
import Mathlib.Order.Lattice

/-!
# Tarjan's algorithm with an explicit stack

`IterativeTarjanSCC` of `detection/graph_engine.py`, over nodes of any type. Each pass of its loop
is one step. The stack is layered by the frames of the work stack: above the node of a frame lie
the finished nodes that reach it.
-/
namespace TarjanScc

open StrongComponents

variable {V : Type*} [DecidableEq V]

/-- `on_stack` is the set of the members of `stack`. The tops of both stacks come first. -/
structure State (V : Type*) where
  index : V → Option ℕ
  lowlink : V → ℕ
  counter : ℕ
  stack : List V
  work : List (V × List V)
  sccs : List (List V)

def State.init : State V := ⟨fun _ => none, fun _ => 0, 0, [], [], []⟩

/-- A node is numbered and pushed on both stacks. -/
def visit (succ : V → List V) (v : V) (s : State V) : State V :=
  { s with
    index := Function.update s.index v (some s.counter)
    lowlink := Function.update s.lowlink v s.counter
    counter := s.counter + 1
    stack := v :: s.stack
    work := (v, succ v) :: s.work }

theorem visit_index (succ : V → List V) (v : V) (s : State V) :
    (visit succ v s).index = Function.update s.index v (some s.counter) := rfl

theorem visit_work (succ : V → List V) (v : V) (s : State V) :
    (visit succ v s).work = (v, succ v) :: s.work := rfl

/-- The stack is popped down to `v`: what was popped and what is left. -/
def popUntil (v : V) : List V → List V × List V
  | [] => ([], [])
  | w :: stack =>
    if w = v then ([w], stack) else (w :: (popUntil v stack).1, (popUntil v stack).2)

def popComponent (v : V) (s : State V) : State V :=
  { s with
    stack := (popUntil v s.stack).2
    sccs := s.sccs ++ [(popUntil v s.stack).1] }

/-- The neighbours of the top node are exhausted. -/
def finish (v : V) (rest : List (V × List V)) (s : State V) : State V :=
  let lowlink := match rest with
    | (parent, _) :: _ =>
      Function.update s.lowlink parent (min (s.lowlink parent) (s.lowlink v))
    | [] => s.lowlink
  let s := { s with work := rest, lowlink := lowlink }
  if some (s.lowlink v) = s.index v then popComponent v s else s

/-- One pass of the loop. -/
def step (succ : V → List V) (s : State V) : State V :=
  match s.work with
  | [] => s
  | (v, []) :: rest => finish v rest s
  | (v, w :: ws) :: rest =>
    let s := { s with work := (v, ws) :: rest }
    if w = v then s
    else
      match s.index w with
      | none => visit succ w s
      | some i =>
        if w ∈ s.stack then
          { s with lowlink := Function.update s.lowlink v (min (s.lowlink v) i) }
        else s

def loop (succ : V → List V) : ℕ → State V → State V
  | 0, s => s
  | fuel + 1, s => if s.work = [] then s else loop succ fuel (step succ s)

/-- The component search from one root. -/
def strongconnect (succ : V → List V) (fuel : ℕ) (v : V) (s : State V) : State V :=
  loop succ fuel (visit succ v s)

def searchAll (succ : V → List V) (fuel : ℕ) (roots : List V) (s : State V) : State V :=
  roots.foldl (fun s v => if s.index v = none then strongconnect succ fuel v s else s) s

/-! ## The layers of the stack -/

def Edge (succ : V → List V) (u v : V) : Prop := v ∈ succ u

/-- The lowlink of `v` is at most the number of `w`. -/
def LowLe (index : V → Option ℕ) (lowlink : V → ℕ) (v w : V) : Prop :=
  ∀ i, index w = some i → lowlink v ≤ i

/-- One frame: the node `v` with the neighbours `pending`, the finished nodes `owned` above it on
the stack and the nodes `below` it. The node `child` is that of the next frame. -/
structure Layer (succ : V → List V) (index : V → Option ℕ) (lowlink : V → ℕ) (done : V → Prop)
    (child : Option V) (v : V) (pending owned below : List V) : Prop where
  mutual_owned : ∀ u ∈ owned, Mutual (Edge succ) u v
  owned_edges : ∀ u ∈ owned, ∀ w ∈ succ u,
    done w ∨ w ∈ owned ++ v :: below ∧ LowLe index lowlink v w
  edges : ∀ w ∈ succ v,
    w ∈ pending ∨ child = some w ∨ done w ∨ w ∈ owned ++ v :: below ∧ LowLe index lowlink v w
  low_reached : ∃ x ∈ v :: below, index x = some (lowlink v) ∧ Reaches (Edge succ) v x
  pending_edges : ∀ w ∈ pending, w ∈ succ v

inductive Layers (succ : V → List V) (index : V → Option ℕ) (lowlink : V → ℕ)
    (done : V → Prop) : Option V → List (V × List V) → List V → Prop where
  | nil {child : Option V} : Layers succ index lowlink done child [] []
  | cons {child : Option V} {v : V} {pending owned below : List V} {rest : List (V × List V)} :
    Layer succ index lowlink done child v pending owned below →
    (∀ frame ∈ rest.head?, v ∈ succ frame.1) →
    Layers succ index lowlink done (some v) rest below →
    Layers succ index lowlink done child ((v, pending) :: rest) (owned ++ v :: below)

section

variable {succ : V → List V} {index index' : V → Option ℕ} {lowlink lowlink' : V → ℕ}
  {done done' : V → Prop} {child child' : Option V} {stack : List V} {work : List (V × List V)}

omit [DecidableEq V] in
theorem LowLe.congr {v w : V} (h : LowLe index lowlink v w) (hindex : index' w = index w)
    (hlow : lowlink' v ≤ lowlink v) : LowLe index' lowlink' v w :=
  fun i hi => hlow.trans (h i (hindex ▸ hi))

omit [DecidableEq V] in
/-- Numbers and lowlinks off the stack are of no account, more nodes may be done, and the child of
the top frame may be. -/
theorem Layers.congr (h : Layers succ index lowlink done child work stack)
    (hindex : ∀ u ∈ stack, index' u = index u) (hlow : ∀ u ∈ stack, lowlink' u = lowlink u)
    (hdone : ∀ w, done w → done' w) (hchild : ∀ w, child = some w → child' = some w ∨ done' w) :
    Layers succ index' lowlink' done' child' work stack := by
  induction h generalizing child' with
  | nil => exact .nil
  | @cons child v pending owned below rest hlayer htree _ ih =>
    have hv : v ∈ owned ++ v :: below := List.mem_append_right _ List.mem_cons_self
    have hle {w : V} (hw : w ∈ owned ++ v :: below) (hwle : LowLe index lowlink v w) :
        LowLe index' lowlink' v w :=
      hwle.congr (hindex w hw) (hlow v hv).le
    refine .cons ⟨hlayer.mutual_owned, ?_, ?_, ?_, hlayer.pending_edges⟩ htree
      (ih (fun u hu => hindex u (List.mem_append_right _ (List.mem_cons_of_mem _ hu)))
        (fun u hu => hlow u (List.mem_append_right _ (List.mem_cons_of_mem _ hu)))
        (fun w hw => .inl hw))
    · intro u hu w hw
      exact (hlayer.owned_edges u hu w hw).imp (hdone w) fun h => ⟨h.1, hle h.1 h.2⟩
    · intro w hw
      rcases hlayer.edges w hw with hpending | hnext | hdn | ⟨hmem, hwle⟩
      · exact .inl hpending
      · exact .inr ((hchild w hnext).imp_right .inl)
      · exact .inr (.inr (.inl (hdone w hdn)))
      · exact .inr (.inr (.inr ⟨hmem, hle hmem hwle⟩))
    · obtain ⟨x, hx, hxlow, hreach⟩ := hlayer.low_reached
      refine ⟨x, hx, ?_, hreach⟩
      rw [hindex x (List.mem_append_right _ hx), hxlow, hlow v hv]

omit [DecidableEq V] in
theorem Layers.reaches_top (h : Layers succ index lowlink done child work stack) {v : V}
    {pending : List V} (hv : (v, pending) ∈ work.head?) : ∀ x ∈ stack, Reaches (Edge succ) x v := by
  induction h generalizing v pending with
  | nil => cases hv
  | @cons child u remaining owned below rest hlayer htree hrest ih =>
    obtain ⟨rfl, rfl⟩ := Prod.mk.inj (Option.some.inj hv)
    intro x hx
    rcases List.mem_append.mp hx with hx | hx
    · exact (hlayer.mutual_owned x hx).1
    rcases List.mem_cons.mp hx with rfl | hx
    · exact .refl
    cases rest with
    | nil =>
      cases hrest
      cases hx
    | cons frame rest => exact (ih rfl x hx).tail (htree frame rfl)

end

/-! ## The invariant of the search -/

structure Invariant (succ : V → List V) (child : Option V) (s : State V) : Prop where
  layers : Layers succ s.index s.lowlink (· ∈ s.sccs.flatten) child s.work s.stack
  sorted : s.stack.Pairwise fun a b => ∀ i j, s.index a = some i → s.index b = some j → j < i
  visited : ∀ v, s.index v ≠ none ↔ v ∈ s.stack ∨ v ∈ s.sccs.flatten
  below_counter : ∀ v i, s.index v = some i → i < s.counter
  nodup : s.stack.Nodup
  disjoint : ∀ v ∈ s.stack, v ∉ s.sccs.flatten
  closed : ∀ u ∈ s.sccs.flatten, ∀ w ∈ succ u, w ∈ s.sccs.flatten
  components : Components (Edge succ) s.sccs

section

variable {succ : V → List V} {s : State V} {v w : V} {ws : List V} {rest : List (V × List V)}
  {child : Option V}

omit [DecidableEq V] in
theorem Invariant.init : Invariant succ child State.init where
  layers := .nil
  sorted := .nil
  visited := by simp [State.init]
  below_counter := nofun
  nodup := .nil
  disjoint := nofun
  closed := nofun
  components := .nil

theorem Invariant.visit (h : Invariant succ (some w) s) (hw : s.index w = none)
    (htree : ∀ frame ∈ s.work.head?, w ∈ succ frame.1) : Invariant succ none (visit succ w s) := by
  have hstack : w ∉ s.stack := fun hmem => (h.visited w).mpr (.inl hmem) hw
  have hdone : w ∉ s.sccs.flatten := fun hmem => (h.visited w).mpr (.inr hmem) hw
  have hne : ∀ u ∈ s.stack, u ≠ w := by
    rintro u hu rfl
    exact hstack hu
  have hbelow : Layers succ (Function.update s.index w (some s.counter))
      (Function.update s.lowlink w s.counter) (· ∈ s.sccs.flatten) (some w) s.work s.stack :=
    h.layers.congr (fun u hu => Function.update_of_ne (hne u hu) _ _)
      (fun u hu => Function.update_of_ne (hne u hu) _ _) (fun _ hu => hu) (fun _ hu => .inl hu)
  have hkeep : ∀ u ∈ s.stack, (TarjanScc.visit succ w s).index u = s.index u :=
    fun u hu => Function.update_of_ne (hne u hu) _ _
  have hnew : (TarjanScc.visit succ w s).index w = some s.counter := Function.update_self _ _ _
  constructor
  · show Layers succ _ _ _ none ((w, succ w) :: s.work) ([] ++ w :: s.stack)
    apply Layers.cons _ htree hbelow
    refine ⟨nofun, nofun, fun u hu => .inl hu, ⟨w, List.mem_cons_self, ?_, .refl⟩, fun _ hu => hu⟩
    rw [Function.update_self, Function.update_self]
  · refine List.pairwise_cons.mpr ⟨fun u hu i j hi hj => ?_, h.sorted.imp_of_mem ?_⟩
    · rw [hnew] at hi
      rw [hkeep u hu] at hj
      exact Option.some.inj hi ▸ h.below_counter u j hj
    · intro a b ha hb hlt i j hi hj
      exact hlt i j (hkeep a ha ▸ hi) (hkeep b hb ▸ hj)
  · intro u
    by_cases hu : u = w
    · subst hu
      rw [hnew]
      exact iff_of_true nofun (.inl List.mem_cons_self)
    · have hold : (TarjanScc.visit succ w s).index u = s.index u := Function.update_of_ne hu _ _
      rw [hold, h.visited u]
      exact or_congr_left (List.mem_cons.trans (or_iff_right hu)).symm
  · intro u i hi
    by_cases hu : u = w
    · subst hu
      rw [hnew] at hi
      exact Option.some.inj hi ▸ Nat.lt_succ_self _
    · have hold : (TarjanScc.visit succ w s).index u = s.index u := Function.update_of_ne hu _ _
      exact Nat.lt_succ_of_lt (h.below_counter u i (hold ▸ hi))
  · exact List.nodup_cons.mpr ⟨hstack, h.nodup⟩
  · intro u hu
    rcases List.mem_cons.mp hu with rfl | hu
    · exact hdone
    · exact h.disjoint u hu
  · exact h.closed
  · exact h.components

omit [DecidableEq V] in
theorem Invariant.relayer {child' : Option V} {s' : State V} (h : Invariant succ child s)
    (hindex : s'.index = s.index) (hcounter : s'.counter = s.counter) (hstack : s'.stack = s.stack)
    (hsccs : s'.sccs = s.sccs) (hlayers : Layers succ s.index s'.lowlink (· ∈ s.sccs.flatten)
      child' s'.work s.stack) : Invariant succ child' s' where
  layers := by rw [hindex, hsccs, hstack]; exact hlayers
  sorted := by rw [hindex, hstack]; exact h.sorted
  visited := by rw [hindex, hsccs, hstack]; exact h.visited
  below_counter := by rw [hindex, hcounter]; exact h.below_counter
  nodup := by rw [hstack]; exact h.nodup
  disjoint := by rw [hsccs, hstack]; exact h.disjoint
  closed := by rw [hsccs]; exact h.closed
  components := by rw [hsccs]; exact h.components

/-! ### The top frame -/

omit [DecidableEq V] in
theorem Invariant.top (h : Invariant succ child s) {pending : List V}
    (hwork : s.work = (v, pending) :: rest) : ∃ owned below, s.stack = owned ++ v :: below ∧
      Layer succ s.index s.lowlink (· ∈ s.sccs.flatten) child v pending owned below ∧
      (∀ frame ∈ rest.head?, v ∈ succ frame.1) ∧
      Layers succ s.index s.lowlink (· ∈ s.sccs.flatten) (some v) rest below := by
  have hlayers := h.layers
  rw [hwork] at hlayers
  generalize hstack : s.stack = stack at hlayers
  cases hlayers with
  | cons hlayer htree hrest => exact ⟨_, _, rfl, hlayer, htree, hrest⟩

section

variable {owned below : List V}

omit [DecidableEq V] in
theorem Invariant.number (h : Invariant succ child s) {u : V} (hu : u ∈ s.stack) :
    ∃ i, s.index u = some i :=
  Option.ne_none_iff_exists'.mp ((h.visited u).mpr (.inl hu))

omit [DecidableEq V] in
theorem Invariant.below_lt (h : Invariant succ child s) (hstack : s.stack = owned ++ v :: below)
    {x : V} (hx : x ∈ below) {i j : ℕ} (hi : s.index v = some i) (hj : s.index x = some j) :
    j < i := by
  have hsorted := h.sorted
  rw [hstack, List.pairwise_append] at hsorted
  exact (List.pairwise_cons.mp hsorted.2.1).1 x hx i j hi hj

omit [DecidableEq V] in
theorem Invariant.lt_owned (h : Invariant succ child s) (hstack : s.stack = owned ++ v :: below)
    {u : V} (hu : u ∈ owned) {i j : ℕ} (hi : s.index v = some i) (hj : s.index u = some j) :
    i < j := by
  have hsorted := h.sorted
  rw [hstack, List.pairwise_append] at hsorted
  exact hsorted.2.2 u hu v List.mem_cons_self j i hj hi

omit [DecidableEq V] in
theorem Invariant.low_le (h : Invariant succ child s) (hstack : s.stack = owned ++ v :: below)
    {child' : Option V} {pending owned' : List V} (hlayer : Layer succ s.index s.lowlink
      (· ∈ s.sccs.flatten) child' v pending owned' below) : LowLe s.index s.lowlink v v := by
  intro i hi
  obtain ⟨x, hx, hlow, -⟩ := hlayer.low_reached
  rcases List.mem_cons.mp hx with rfl | hx
  · exact (Option.some.inj (hi.symm.trans hlow)).ge
  · exact (h.below_lt hstack hx hi hlow).le

/-! ### Steps -/

omit [DecidableEq V] in
theorem Layer.take_neighbour {index : V → Option ℕ} {lowlink : V → ℕ} {done : V → Prop}
    (h : Layer succ index lowlink done none v (w :: ws) owned below)
    (hw : child = some w ∨ done w ∨ w ∈ owned ++ v :: below ∧ LowLe index lowlink v w) :
    Layer succ index lowlink done child v ws owned below where
  mutual_owned := h.mutual_owned
  owned_edges := h.owned_edges
  edges := by
    intro u hu
    rcases h.edges u hu with hpending | hnext | hrest
    · rcases List.mem_cons.mp hpending with rfl | hpending
      · exact .inr hw
      · exact .inl hpending
    · cases hnext
    · exact .inr (.inr hrest)
  low_reached := h.low_reached
  pending_edges := fun u hu => h.pending_edges u (List.mem_cons_of_mem _ hu)

omit [DecidableEq V] in
theorem Invariant.skip (h : Invariant succ none s) (hwork : s.work = (v, w :: ws) :: rest)
    (hw : w = v ∨ w ∈ s.sccs.flatten) :
    Invariant succ none { s with work := (v, ws) :: rest } := by
  obtain ⟨owned, below, hstack, hlayer, htree, hrest⟩ := h.top hwork
  refine h.relayer rfl rfl rfl rfl ?_
  rw [hstack]
  refine .cons (hlayer.take_neighbour (.inr ?_)) htree hrest
  rcases hw with rfl | hw
  · exact .inr ⟨List.mem_append_right _ List.mem_cons_self, h.low_le hstack hlayer⟩
  · exact .inl hw

omit [DecidableEq V] in
theorem Invariant.descend (h : Invariant succ none s) (hwork : s.work = (v, w :: ws) :: rest) :
    Invariant succ (some w) { s with work := (v, ws) :: rest } := by
  obtain ⟨owned, below, hstack, hlayer, htree, hrest⟩ := h.top hwork
  refine h.relayer rfl rfl rfl rfl ?_
  rw [hstack]
  exact .cons (hlayer.take_neighbour (.inl rfl)) htree hrest

/-- A neighbour on the stack lowers the lowlink. -/
theorem Invariant.lower (h : Invariant succ none s) (hwork : s.work = (v, w :: ws) :: rest)
    {i : ℕ} (hi : s.index w = some i) (hw : w ∈ s.stack) :
    Invariant succ none { s with
      work := (v, ws) :: rest
      lowlink := Function.update s.lowlink v (min (s.lowlink v) i) } := by
  obtain ⟨owned, below, hstack, hlayer, htree, hrest⟩ := h.top hwork
  have hself : Function.update s.lowlink v (min (s.lowlink v) i) v = min (s.lowlink v) i :=
    Function.update_self _ _ _
  have hle : Function.update s.lowlink v (min (s.lowlink v) i) v ≤ s.lowlink v :=
    hself.trans_le (min_le_left _ _)
  have hv : v ∉ below := by
    have hnodup := h.nodup
    rw [hstack, List.nodup_append] at hnodup
    exact (List.nodup_cons.mp hnodup.2.1).1
  have hlow : ∃ x ∈ v :: below, s.index x = some (min (s.lowlink v) i) ∧
      Reaches (Edge succ) v x := by
    rcases Nat.le_total (s.lowlink v) i with hle | hle
    · rw [min_eq_left hle]
      exact hlayer.low_reached
    rw [min_eq_right hle]
    rcases List.mem_append.mp (hstack ▸ hw) with howned | hmem
    · -- An owned node has a greater number than `v`, which its lowlink does not exceed.
      obtain ⟨j, hj⟩ := h.number (hstack ▸ List.mem_append_right _ List.mem_cons_self : v ∈ s.stack)
      have := h.lt_owned hstack howned hj hi
      have := h.low_le hstack hlayer j hj
      omega
    · exact ⟨w, hmem, hi, .single (hlayer.pending_edges w List.mem_cons_self)⟩
  have hindex : ∀ u ∈ below, s.index u = s.index u := fun _ _ => rfl
  have hbelow := hrest.congr hindex
    (fun u hu => Function.update_of_ne (ne_of_mem_of_not_mem hu hv) (min (s.lowlink v) i) s.lowlink)
    (fun _ hu => hu) (fun _ hu => .inl hu)
  refine h.relayer rfl rfl rfl rfl ?_
  rw [hstack]
  refine .cons ⟨hlayer.mutual_owned, ?_, ?_, ?_,
    fun u hu => hlayer.pending_edges u (List.mem_cons_of_mem _ hu)⟩ htree hbelow
  · intro u hu x hx
    exact (hlayer.owned_edges u hu x hx).imp_right fun hmem => ⟨hmem.1, hmem.2.congr rfl hle⟩
  · intro x hx
    rcases hlayer.edges x hx with hpending | hnext | hdone | ⟨hmem, hlow⟩
    · rcases List.mem_cons.mp hpending with rfl | hpending
      · refine .inr (.inr (.inr ⟨hstack ▸ hw, fun j hj => ?_⟩))
        exact (hself.trans_le (min_le_right _ _)).trans (Option.some.inj (hi.symm.trans hj)).le
      · exact .inl hpending
    · cases hnext
    · exact .inr (.inr (.inl hdone))
    · exact .inr (.inr (.inr ⟨hmem, hlow.congr rfl hle⟩))
  · obtain ⟨x, hx, hxlow, hreach⟩ := hlow
    exact ⟨x, hx, hxlow.trans (congrArg some hself.symm), hreach⟩

theorem popUntil_append {stack : List V} (hv : v ∉ owned) (hstack : stack = owned ++ v :: below) :
    popUntil v stack = (owned ++ [v], below) := by
  subst hstack
  induction owned with
  | nil => exact if_pos rfl
  | cons u owned ih =>
    rw [List.mem_cons, not_or] at hv
    rw [List.cons_append, popUntil, if_neg (Ne.symm hv.1), ih hv.2, List.cons_append]

omit [DecidableEq V] in
/-- Where the lowlink of a finished node is its number, nothing leads from what is above it to what
is below. -/
theorem Invariant.closed_above (h : Invariant succ none s)
    (hstack : s.stack = owned ++ v :: below) (hlayer : Layer succ s.index s.lowlink
      (· ∈ s.sccs.flatten) none v [] owned below) (hroot : some (s.lowlink v) = s.index v) :
    ∀ u ∈ owned ++ [v], ∀ w ∈ succ u, w ∈ owned ++ [v] ∨ w ∈ s.sccs.flatten := by
  have above {w : V} (hmem : w ∈ owned ++ v :: below)
      (hlow : LowLe s.index s.lowlink v w) : w ∈ owned ++ [v] := by
    rcases List.mem_append.mp hmem with hw | hw
    · exact List.mem_append_left _ hw
    rcases List.mem_cons.mp hw with rfl | hw
    · exact List.mem_append_right _ (List.mem_singleton_self _)
    obtain ⟨j, hj⟩ := h.number (hstack ▸ hmem)
    have := h.below_lt hstack hw hroot.symm hj
    have := hlow j hj
    omega
  intro u hu w hw
  rcases List.mem_append.mp hu with hu | hu
  · rcases hlayer.owned_edges u hu w hw with hdone | ⟨hmem, hlow⟩
    · exact .inr hdone
    · exact .inl (above hmem hlow)
  · obtain rfl := List.mem_singleton.mp hu
    rcases hlayer.edges w hw with hpending | hnext | hdone | ⟨hmem, hlow⟩
    · cases hpending
    · cases hnext
    · exact .inr hdone
    · exact .inl (above hmem hlow)

omit [DecidableEq V] in
theorem Invariant.is_component (h : Invariant succ none s)
    (hstack : s.stack = owned ++ v :: below) (hlayer : Layer succ s.index s.lowlink
      (· ∈ s.sccs.flatten) none v [] owned below) (hroot : some (s.lowlink v) = s.index v) :
    ∀ u ∈ owned ++ [v], ∀ w, w ∈ owned ++ [v] ↔ Mutual (Edge succ) u w := by
  have hmutual : ∀ u ∈ owned ++ [v], Mutual (Edge succ) u v := by
    intro u hu
    rcases List.mem_append.mp hu with hu | hu
    · exact hlayer.mutual_owned u hu
    · obtain rfl := List.mem_singleton.mp hu
      exact .refl u
  have hclosed := h.closed_above hstack hlayer hroot
  intro u hu w
  constructor
  · exact fun hw => (hmutual u hu).trans (hmutual w hw).symm
  · intro huw
    have hw : w ∈ owned ++ [v] ∨ w ∈ s.sccs.flatten := by
      refine mem_of_reaches (S := fun x => x ∈ owned ++ [v] ∨ x ∈ s.sccs.flatten) ?_ (.inl hu) huw.1
      rintro a (ha | ha) b hab
      · exact hclosed a ha b hab
      · exact .inr (h.closed a ha b hab)
    refine hw.resolve_right fun hdone => ?_
    -- What is done leads to what is done only, but `u` is on the stack.
    have hudone : u ∈ s.sccs.flatten := mem_of_reaches h.closed hdone huw.2
    refine h.disjoint u ?_ hudone
    rw [hstack]
    rcases List.mem_append.mp hu with hu | hu
    · exact List.mem_append_left _ hu
    · exact List.mem_append_right _ (List.mem_singleton.mp hu ▸ List.mem_cons_self)

/-- The nodes above a root are popped as a component. -/
theorem Invariant.pop (h : Invariant succ none s) (hwork : s.work = (v, []) :: rest)
    (hroot : some (s.lowlink v) = s.index v) {lowlink : V → ℕ}
    (hlow : ∀ owned below, s.stack = owned ++ v :: below → ∀ u ∈ below, lowlink u = s.lowlink u) :
    Invariant succ none (popComponent v { s with work := rest, lowlink := lowlink }) := by
  obtain ⟨owned, below, hstack, hlayer, htree, hrest⟩ := h.top hwork
  have hnodup := h.nodup
  rw [hstack, List.nodup_append] at hnodup
  have hv : v ∉ owned := fun hmem => hnodup.2.2 v hmem v List.mem_cons_self rfl
  have hpop := popUntil_append hv hstack
  have hcomponent := h.is_component hstack hlayer hroot
  have hmem (u : V) : u ∈ (s.sccs ++ [owned ++ [v]]).flatten ↔
      u ∈ s.sccs.flatten ∨ u ∈ owned ++ [v] := by
    rw [List.flatten_concat, List.mem_append]
  have hstack' : s.stack = (owned ++ [v]) ++ below := by rw [hstack]; simp
  unfold popComponent
  rw [hpop]
  constructor
  · refine hrest.congr (fun _ _ => rfl) (hlow owned below hstack)
      (fun w hw => (hmem w).mpr (.inl hw)) fun w hw => .inr ((hmem w).mpr (.inr ?_))
    exact List.mem_append_right _ (List.mem_singleton.mpr (Option.some.inj hw).symm)
  · have hsorted := h.sorted
    rw [hstack', List.pairwise_append] at hsorted
    exact hsorted.2.1
  · intro u
    rw [hmem, h.visited, hstack', List.mem_append]
    tauto
  · exact h.below_counter
  · exact (List.nodup_cons.mp hnodup.2.1).2
  · intro u hu hdone
    rcases (hmem u).mp hdone with hdone | hdone
    · exact h.disjoint u (hstack' ▸ List.mem_append_right _ hu) hdone
    · have hnodup' := h.nodup
      rw [hstack', List.nodup_append] at hnodup'
      exact hnodup'.2.2 u hdone u hu rfl
  · intro u hu w hw
    rw [hmem] at hu ⊢
    rcases hu with hu | hu
    · exact .inl (h.closed u hu w hw)
    · exact (h.closed_above hstack hlayer hroot u hu w hw).symm
  · refine h.components.concat (by simp) ?_ ?_ hcomponent
    · have hnodup' := h.nodup
      rw [hstack', List.nodup_append] at hnodup'
      exact hnodup'.1
    · exact fun u hu => h.disjoint u (hstack' ▸ List.mem_append_left _ hu)

/-- A finished node that is no root leaves its nodes to the frame of its parent. -/
theorem Invariant.merge {parent : V} {pending : List V} (h : Invariant succ none s)
    (hwork : s.work = (v, []) :: (parent, pending) :: rest)
    (hroot : some (s.lowlink v) ≠ s.index v) :
    Invariant succ none { s with
      work := (parent, pending) :: rest
      lowlink := Function.update s.lowlink parent (min (s.lowlink parent) (s.lowlink v)) } := by
  obtain ⟨owned, below, hstack, hlayer, htree, hrest⟩ := h.top hwork
  obtain ⟨x, hx, hxlow, hvx⟩ := hlayer.low_reached
  have hxbelow : x ∈ below := by
    rcases List.mem_cons.mp hx with rfl | hx
    · exact absurd hxlow.symm hroot
    · exact hx
  have hxparent := hrest.reaches_top rfl x hxbelow
  have hvlow := h.low_le hstack hlayer
  cases hrest with
  | @cons _ _ _ owned' below' _ hlayer' htree' hrest' =>
    have hvparent : Mutual (Edge succ) v parent :=
      ⟨hvx.trans hxparent, .single (htree _ rfl)⟩
    have hstack' : s.stack = (owned ++ v :: owned') ++ parent :: below' := by rw [hstack]; simp
    have hself : Function.update s.lowlink parent (min (s.lowlink parent) (s.lowlink v)) parent =
        min (s.lowlink parent) (s.lowlink v) := Function.update_self _ _ _
    have hle : Function.update s.lowlink parent (min (s.lowlink parent) (s.lowlink v)) parent ≤
        s.lowlink parent := hself.trans_le (min_le_left _ _)
    have hle' : Function.update s.lowlink parent (min (s.lowlink parent) (s.lowlink v)) parent ≤
        s.lowlink v := hself.trans_le (min_le_right _ _)
    have hparent : parent ∉ below' := by
      have hnodup := h.nodup
      rw [hstack', List.nodup_append] at hnodup
      exact (List.nodup_cons.mp hnodup.2.1).1
    have hindex : ∀ u ∈ below', s.index u = s.index u := fun _ _ => rfl
    have hbelow := hrest'.congr hindex (fun u hu =>
      Function.update_of_ne (ne_of_mem_of_not_mem hu hparent)
        (min (s.lowlink parent) (s.lowlink v)) s.lowlink) (fun _ hu => hu) (fun _ hu => .inl hu)
    -- What lies on the old stack lies on the same stack, split at the parent.
    have hchild {w : V} (hmem : w ∈ owned ++ v :: (owned' ++ parent :: below')) :
        w ∈ (owned ++ v :: owned') ++ parent :: below' := by simpa using hmem
    have hsub {w : V} (hmem : w ∈ owned' ++ parent :: below') :
        w ∈ (owned ++ v :: owned') ++ parent :: below' :=
      hchild (List.mem_append_right _ (List.mem_cons_of_mem _ hmem))
    refine h.relayer rfl rfl rfl rfl ?_
    rw [hstack']
    refine .cons ⟨?_, ?_, ?_, ?_, hlayer'.pending_edges⟩ htree' hbelow
    · intro u hu
      rcases List.mem_append.mp hu with hu | hu
      · exact (hlayer.mutual_owned u hu).trans hvparent
      rcases List.mem_cons.mp hu with rfl | hu
      · exact hvparent
      · exact hlayer'.mutual_owned u hu
    · intro u hu w hw
      rcases List.mem_append.mp hu with hu | hu
      · exact (hlayer.owned_edges u hu w hw).imp_right fun hmem =>
          ⟨hchild hmem.1, fun i hi => hle'.trans (hmem.2 i hi)⟩
      rcases List.mem_cons.mp hu with rfl | hu
      · rcases hlayer.edges w hw with hpending | hnext | hdone | ⟨hmem, hlow⟩
        · cases hpending
        · cases hnext
        · exact .inl hdone
        · exact .inr ⟨hchild hmem, fun i hi => hle'.trans (hlow i hi)⟩
      · exact (hlayer'.owned_edges u hu w hw).imp_right fun hmem =>
          ⟨hsub hmem.1, hmem.2.congr rfl hle⟩
    · intro w hw
      rcases hlayer'.edges w hw with hpending | hnext | hdone | ⟨hmem, hlow⟩
      · exact .inl hpending
      · obtain rfl := Option.some.inj hnext
        refine .inr (.inr (.inr ⟨?_, fun i hi => hle'.trans (hvlow i hi)⟩))
        exact hchild (List.mem_append_right _ List.mem_cons_self)
      · exact .inr (.inr (.inl hdone))
      · exact .inr (.inr (.inr ⟨hsub hmem, hlow.congr rfl hle⟩))
    · rcases Nat.le_total (s.lowlink parent) (s.lowlink v) with hmin | hmin
      · obtain ⟨y, hy, hylow, hreach⟩ := hlayer'.low_reached
        exact ⟨y, hy, hylow.trans (congrArg some (hself.trans (min_eq_left hmin)).symm), hreach⟩
      · refine ⟨x, ?_, hxlow.trans (congrArg some (hself.trans (min_eq_right hmin)).symm),
          hvparent.2.trans hvx⟩
        rcases List.mem_append.mp hxbelow with howned | hmem
        · -- An owned node of the parent has a greater number than the parent.
          exfalso
          obtain ⟨j, hj⟩ :=
            h.number (hstack' ▸ List.mem_append_right _ List.mem_cons_self : parent ∈ s.stack)
          have := h.lt_owned hstack'
            (List.mem_append_right owned (List.mem_cons_of_mem v howned)) hj hxlow
          have := h.low_le hstack' hlayer' j hj
          omega
        · exact hmem

theorem Invariant.finish (h : Invariant succ none s) (hwork : s.work = (v, []) :: rest) :
    Invariant succ none (finish v rest s) := by
  obtain ⟨owned, below, hstack, hlayer, htree, hrest⟩ := h.top hwork
  unfold TarjanScc.finish
  cases hrest with
  | nil =>
    obtain ⟨x, hx, hxlow, -⟩ := hlayer.low_reached
    obtain rfl := List.mem_singleton.mp hx
    have hroot : some (s.lowlink x) = s.index x := hxlow.symm
    simp only [hroot, if_true]
    exact h.pop hwork hroot fun _ _ _ _ _ => rfl
  | @cons _ parent pending owned' below' rest hlayer' htree' hrest' =>
    have hnodup := h.nodup
    rw [hstack, List.nodup_append] at hnodup
    have hmem : parent ∈ owned' ++ parent :: below' :=
      List.mem_append_right _ List.mem_cons_self
    have hne : v ≠ parent := by
      rintro rfl
      exact (List.nodup_cons.mp hnodup.2.1).1 hmem
    simp only [Function.update_of_ne hne]
    split_ifs with hroot
    · refine h.pop hwork hroot fun owned₁ below₁ hsplit u hu => ?_
      by_cases hu' : u = parent
      · subst hu'
        have hstack' : s.stack = (owned ++ v :: owned') ++ u :: below' := by rw [hstack]; simp
        obtain ⟨j, hj⟩ := h.number (hstack ▸ List.mem_append_right _ (List.mem_cons_of_mem _ hmem))
        have := h.below_lt hstack hmem hroot.symm hj
        have := h.low_le hstack' hlayer' j hj
        rw [Function.update_self]
        exact min_eq_left (by omega)
      · exact Function.update_of_ne hu' _ _
    · exact h.merge hwork hroot

theorem Invariant.step (h : Invariant succ none s) : Invariant succ none (step succ s) := by
  unfold TarjanScc.step
  cases hwork : s.work with
  | nil => exact h
  | cons frame rest =>
    obtain ⟨v, pending⟩ := frame
    cases pending with
    | nil => exact h.finish hwork
    | cons w ws =>
      by_cases hself : w = v
      · simp only [if_pos hself]
        exact h.skip hwork (.inl hself)
      simp only [if_neg hself]
      cases hindex : s.index w with
      | none =>
        obtain ⟨owned, below, hstack, hlayer, htree, hrest⟩ := h.top hwork
        refine (h.descend hwork).visit hindex fun frame hframe => ?_
        obtain rfl := Option.some.inj hframe
        exact hlayer.pending_edges w List.mem_cons_self
      | some i =>
        simp only
        split_ifs with hw
        · exact h.lower hwork hindex hw
        · refine h.skip hwork (.inr ?_)
          exact ((h.visited w).mp (by rw [hindex]; nofun)).resolve_left hw

theorem Invariant.loop (h : Invariant succ none s) (fuel : ℕ) :
    Invariant succ none (loop succ fuel s) := by
  induction fuel generalizing s with
  | zero => exact h
  | succ fuel ih =>
    rw [TarjanScc.loop]
    split_ifs
    · exact h
    · exact ih h.step

end

end

/-! ## Termination -/

section

variable {succ : V → List V} {s : State V} {nodes : List V}

/-- The passes over a node that has no number yet. -/
def unvisitedCost (succ : V → List V) (index : V → Option ℕ) (v : V) : ℕ :=
  if index v = none then (succ v).length + 1 else 0

/-- The passes that the loop has still to make, over the given nodes. -/
def remaining (succ : V → List V) (nodes : List V) (s : State V) : ℕ :=
  (s.work.map fun frame => frame.2.length + 1).sum + (nodes.map (unvisitedCost succ s.index)).sum

def Known (nodes : List V) (s : State V) : Prop := ∀ frame ∈ s.work, ∀ w ∈ frame.2, w ∈ nodes

def Closed (succ : V → List V) (nodes : List V) : Prop := ∀ v ∈ nodes, ∀ w ∈ succ v, w ∈ nodes

omit [DecidableEq V] in
theorem sum_eq_of_differ_at {f g : V → ℕ} {v : V} {k : ℕ} (hnodup : nodes.Nodup) (hv : v ∈ nodes)
    (hat : f v = k + g v) (hoff : ∀ u ∈ nodes, u ≠ v → f u = g u) :
    (nodes.map f).sum = k + (nodes.map g).sum := by
  induction nodes with
  | nil => cases hv
  | cons u nodes ih =>
    obtain ⟨hu, hnodup⟩ := List.nodup_cons.mp hnodup
    rw [List.map_cons, List.map_cons, List.sum_cons, List.sum_cons]
    rcases List.mem_cons.mp hv with rfl | hv
    · have hrest : nodes.map f = nodes.map g := List.map_congr_left fun x hx =>
        hoff x (List.mem_cons_of_mem _ hx) (ne_of_mem_of_not_mem hx hu)
      rw [hat, hrest, Nat.add_assoc]
    · rw [ih hnodup hv fun x hx => hoff x (List.mem_cons_of_mem _ hx),
        hoff u List.mem_cons_self (ne_of_mem_of_not_mem hv hu).symm, Nat.add_left_comm]

theorem remaining_visit {v : V} (hnodup : nodes.Nodup) (hv : v ∈ nodes)
    (hindex : s.index v = none) :
    remaining succ nodes (visit succ v s) = remaining succ nodes s := by
  have hcost : (nodes.map (unvisitedCost succ s.index)).sum = ((succ v).length + 1) +
      (nodes.map (unvisitedCost succ (visit succ v s).index)).sum := by
    apply sum_eq_of_differ_at hnodup hv
    · rw [unvisitedCost, if_pos hindex, unvisitedCost, visit_index, Function.update_self]
      rfl
    · intro u _ hu
      rw [unvisitedCost, unvisitedCost, visit_index, Function.update_of_ne hu]
  unfold remaining
  rw [hcost, visit_work, List.map_cons, List.sum_cons]
  dsimp only
  omega

@[simp] theorem remaining_popComponent (v : V) :
    remaining succ nodes (popComponent v s) = remaining succ nodes s := rfl

/-- Every pass takes one neighbour or finishes one node. -/
theorem remaining_step (hnodup : nodes.Nodup) (hknown : Known nodes s) (hwork : s.work ≠ []) :
    remaining succ nodes (step succ s) + 1 = remaining succ nodes s := by
  cases hframes : s.work with
  | nil => exact absurd hframes hwork
  | cons frame rest =>
    obtain ⟨v, pending⟩ := frame
    unfold step
    rw [hframes]
    cases pending with
    | nil =>
      simp only [finish]
      split_ifs
      all_goals
        simp only [remaining, popComponent, hframes, List.map_cons, List.sum_cons, List.length_nil]
        omega
    | cons w ws =>
      have hmem : w ∈ nodes := hknown _ (hframes ▸ List.mem_cons_self) w List.mem_cons_self
      have htake : remaining succ nodes { s with work := (v, ws) :: rest } + 1 =
          remaining succ nodes s := by
        simp only [remaining, hframes, List.map_cons, List.sum_cons, List.length_cons]
        omega
      by_cases hself : w = v
      · simpa only [if_pos hself] using htake
      simp only [if_neg hself]
      cases hindex : s.index w with
      | none =>
        have hvisit := @remaining_visit V _ succ { s with work := (v, ws) :: rest } nodes w hnodup
          hmem hindex
        simpa only [hvisit] using htake
      | some i =>
        simp only
        split_ifs
        · exact htake
        · exact htake

theorem Known.step (hknown : Known nodes s) (hclosed : Closed succ nodes) :
    Known nodes (step succ s) := by
  unfold TarjanScc.step
  cases hframes : s.work with
  | nil => exact hknown
  | cons frame rest =>
    obtain ⟨v, pending⟩ := frame
    have hrest : ∀ frame ∈ rest, ∀ w ∈ frame.2, w ∈ nodes := fun frame hframe =>
      hknown frame (hframes ▸ List.mem_cons_of_mem _ hframe)
    cases pending with
    | nil =>
      simp only [finish]
      split_ifs
      all_goals exact hrest
    | cons w ws =>
      have htop := hknown _ (hframes ▸ List.mem_cons_self)
      have htake : Known nodes { s with work := (v, ws) :: rest } := by
        intro frame hframe
        rcases List.mem_cons.mp hframe with rfl | hframe
        · exact fun u hu => htop u (List.mem_cons_of_mem _ hu)
        · exact hrest frame hframe
      by_cases hself : w = v
      · simpa only [if_pos hself] using htake
      simp only [if_neg hself]
      cases hindex : s.index w with
      | none =>
        intro frame hframe
        rcases List.mem_cons.mp hframe with rfl | hframe
        · exact hclosed w (htop w List.mem_cons_self)
        · exact htake frame hframe
      | some i =>
        simp only
        split_ifs
        · exact htake
        · exact htake

theorem loop_finishes (hnodup : nodes.Nodup) (hclosed : Closed succ nodes) {fuel : ℕ}
    (hknown : Known nodes s) (hfuel : remaining succ nodes s ≤ fuel) :
    (loop succ fuel s).work = [] := by
  induction fuel generalizing s with
  | zero =>
    by_contra hwork
    have : remaining succ nodes (step succ s) + 1 = remaining succ nodes s :=
      remaining_step hnodup hknown hwork
    omega
  | succ fuel ih =>
    rw [loop]
    split_ifs with hwork
    · exact hwork
    · have : remaining succ nodes (step succ s) + 1 = remaining succ nodes s :=
        remaining_step hnodup hknown hwork
      exact ih (hknown.step hclosed) (by omega)

/-! ## The whole search -/

theorem index_step {u : V} (hu : s.index u ≠ none) : (step succ s).index u ≠ none := by
  unfold step
  cases hframes : s.work with
  | nil => exact hu
  | cons frame rest =>
    obtain ⟨v, pending⟩ := frame
    cases pending with
    | nil =>
      simp only [finish]
      split_ifs
      all_goals exact hu
    | cons w ws =>
      by_cases hself : w = v
      · simpa only [if_pos hself] using hu
      simp only [if_neg hself]
      cases hindex : s.index w with
      | none =>
        have hne : u ≠ w := by
          rintro rfl
          exact hu hindex
        simpa only [visit_index, Function.update_of_ne hne] using hu
      | some i =>
        simp only
        split_ifs
        all_goals exact hu

theorem index_loop {u : V} (hu : s.index u ≠ none) (fuel : ℕ) :
    (loop succ fuel s).index u ≠ none := by
  induction fuel generalizing s with
  | zero => exact hu
  | succ fuel ih =>
    rw [loop]
    split_ifs
    · exact hu
    · exact ih (index_step hu)

def VisitedIn (nodes : List V) (s : State V) : Prop := ∀ u, s.index u ≠ none → u ∈ nodes

theorem VisitedIn.visit {v : V} (h : VisitedIn nodes s) (hv : v ∈ nodes) :
    VisitedIn nodes (visit succ v s) := by
  intro u hu
  by_cases heq : u = v
  · exact heq ▸ hv
  · rw [visit_index, Function.update_of_ne heq] at hu
    exact h u hu

theorem VisitedIn.step (h : VisitedIn nodes s) (hknown : Known nodes s) :
    VisitedIn nodes (step succ s) := by
  unfold TarjanScc.step
  cases hframes : s.work with
  | nil => exact h
  | cons frame rest =>
    obtain ⟨v, pending⟩ := frame
    cases pending with
    | nil =>
      simp only [finish]
      split_ifs
      all_goals exact h
    | cons w ws =>
      have htake : VisitedIn nodes { s with work := (v, ws) :: rest } := h
      by_cases hself : w = v
      · simpa only [if_pos hself] using htake
      simp only [if_neg hself]
      cases hindex : s.index w with
      | none =>
        exact htake.visit (hknown _ (hframes ▸ List.mem_cons_self) w List.mem_cons_self)
      | some i =>
        simp only
        split_ifs
        all_goals exact h

theorem VisitedIn.loop (hclosed : Closed succ nodes) (h : VisitedIn nodes s)
    (hknown : Known nodes s) (fuel : ℕ) : VisitedIn nodes (loop succ fuel s) := by
  induction fuel generalizing s with
  | zero => exact h
  | succ fuel ih =>
    rw [TarjanScc.loop]
    split_ifs
    · exact h
    · exact ih (h.step hknown) (hknown.step hclosed)

def totalPasses (succ : V → List V) (nodes : List V) : ℕ :=
  (nodes.map fun v => (succ v).length + 1).sum

omit [DecidableEq V] in
theorem remaining_le_total (hwork : s.work = []) :
    remaining succ nodes s ≤ totalPasses succ nodes := by
  rw [remaining, hwork, totalPasses, List.map_nil, List.sum_nil, Nat.zero_add]
  apply List.sum_le_sum
  intro v _
  unfold unvisitedCost
  split_ifs
  · exact le_rfl
  · exact Nat.zero_le _

/-- Between two searches both stacks are empty. -/
structure Searched (succ : V → List V) (nodes : List V) (s : State V) : Prop where
  invariant : Invariant succ none s
  idle : s.work = []
  visited : VisitedIn nodes s

omit [DecidableEq V] in
theorem Searched.init : Searched succ nodes State.init := ⟨.init, rfl, fun _ h => absurd rfl h⟩

theorem Searched.visit {v : V} (h : Searched succ nodes s) (hindex : s.index v = none) :
    Invariant succ none (visit succ v s) := by
  have hroot : Invariant succ (some v) s := by
    refine h.invariant.relayer rfl rfl rfl rfl ?_
    have hlayers := h.invariant.layers
    rw [h.idle] at hlayers ⊢
    generalize s.stack = stack at hlayers ⊢
    cases hlayers
    exact .nil
  refine hroot.visit hindex ?_
  rw [h.idle]
  nofun

theorem Searched.strongconnect {v : V} {fuel : ℕ} (h : Searched succ nodes s)
    (hnodup : nodes.Nodup) (hclosed : Closed succ nodes) (hfuel : totalPasses succ nodes ≤ fuel)
    (hv : v ∈ nodes) (hindex : s.index v = none) :
    Searched succ nodes (strongconnect succ fuel v s) := by
  have hknown : Known nodes (TarjanScc.visit succ v s) := by
    intro frame hframe
    rw [visit_work, h.idle] at hframe
    obtain rfl := List.mem_singleton.mp hframe
    exact hclosed v hv
  refine ⟨(h.visit hindex).loop fuel, ?_, (h.visited.visit hv).loop hclosed hknown fuel⟩
  apply loop_finishes hnodup hclosed hknown
  rw [remaining_visit hnodup hv hindex]
  exact (remaining_le_total h.idle).trans hfuel

theorem searchAll_searched {roots : List V} {fuel : ℕ} (hnodup : nodes.Nodup)
    (hclosed : Closed succ nodes) (hfuel : totalPasses succ nodes ≤ fuel)
    (hroots : ∀ v ∈ roots, v ∈ nodes) (h : Searched succ nodes s) :
    Searched succ nodes (searchAll succ fuel roots s) ∧
      (∀ u, s.index u ≠ none → (searchAll succ fuel roots s).index u ≠ none) ∧
      ∀ v ∈ roots, (searchAll succ fuel roots s).index v ≠ none := by
  induction roots generalizing s with
  | nil => exact ⟨h, fun _ hu => hu, nofun⟩
  | cons v roots ih =>
    have hv := hroots v List.mem_cons_self
    have hrest := fun u hu => hroots u (List.mem_cons_of_mem _ hu)
    simp only [searchAll, List.foldl_cons] at ih ⊢
    by_cases hindex : s.index v = none
    · rw [if_pos hindex]
      have hroot : (visit succ v s).index v ≠ none := by
        rw [visit_index, Function.update_self]
        nofun
      have hkeep : ∀ u, s.index u ≠ none → (strongconnect succ fuel v s).index u ≠ none := by
        intro u hu
        apply index_loop
        have hne : u ≠ v := by
          rintro rfl
          exact hu hindex
        rwa [visit_index, Function.update_of_ne hne]
      obtain ⟨hsearched, hmono, hdone⟩ :=
        ih hrest (h.strongconnect hnodup hclosed hfuel hv hindex)
      refine ⟨hsearched, fun u hu => hmono u (hkeep u hu), fun u hu => ?_⟩
      rcases List.mem_cons.mp hu with rfl | hu
      · exact hmono u (index_loop hroot fuel)
      · exact hdone u hu
    · rw [if_neg hindex]
      obtain ⟨hsearched, hmono, hdone⟩ := ih hrest h
      refine ⟨hsearched, hmono, fun u hu => ?_⟩
      rcases List.mem_cons.mp hu with rfl | hu
      · exact hmono u hindex
      · exact hdone u hu

end

/-! ## `IterativeTarjanSCC.run` -/

/-- `graph.get(v, [])` of an adjacency dictionary. -/
def neighbours (graph : List (V × List V)) (v : V) : List V := (graph.lookup v).getD []

/-- The keys and what the edges lead to. -/
def nodesOf (graph : List (V × List V)) : List V :=
  (graph.map Prod.fst ++ (graph.map Prod.fst).flatMap (neighbours graph)).dedup

/-- The passes over all nodes are enough for each search. -/
def run (graph : List (V × List V)) : List (List V) :=
  (searchAll (neighbours graph) (totalPasses (neighbours graph) (nodesOf graph))
    (graph.map Prod.fst) State.init).sccs

section

variable {graph : List (V × List V)} {u v : V}

theorem neighbours_cons (targets : List V) :
    neighbours ((v, targets) :: graph) u = if u = v then targets else neighbours graph u := by
  unfold neighbours
  rw [List.lookup_cons]
  split_ifs with huv
  · rw [beq_iff_eq.mpr huv]
    rfl
  · rw [beq_eq_false_iff_ne.mpr huv]

theorem key_of_edge (h : v ∈ neighbours graph u) : u ∈ graph.map Prod.fst := by
  unfold neighbours at h
  cases hlookup : graph.lookup u with
  | none =>
    rw [hlookup] at h
    cases h
  | some targets =>
    obtain ⟨front, back, hsplit, -⟩ := List.lookup_eq_some_iff.mp hlookup
    rw [hsplit]
    simp

theorem mem_nodesOf : v ∈ nodesOf graph ↔
    v ∈ graph.map Prod.fst ∨ ∃ u, v ∈ neighbours graph u := by
  rw [nodesOf, List.mem_dedup, List.mem_append, List.mem_flatMap]
  exact or_congr_right ⟨fun ⟨u, _, h⟩ => ⟨u, h⟩, fun ⟨u, h⟩ => ⟨u, key_of_edge h, h⟩⟩

theorem lookup_of_mem (hkeys : (graph.map Prod.fst).Nodup) {targets : List V}
    (h : (u, targets) ∈ graph) : graph.lookup u = some targets := by
  obtain ⟨front, back, rfl⟩ := List.append_of_mem h
  rw [List.lookup_eq_some_iff]
  refine ⟨front, back, rfl, fun p hp => ?_⟩
  rw [List.map_append, List.nodup_append] at hkeys
  have hne := hkeys.2.2 p.1 (List.mem_map_of_mem hp) u List.mem_cons_self
  simpa using Ne.symm hne

theorem mem_neighbours_iff (hkeys : (graph.map Prod.fst).Nodup) :
    v ∈ neighbours graph u ↔ ∃ targets, (u, targets) ∈ graph ∧ v ∈ targets := by
  constructor
  · intro h
    obtain ⟨⟨_, targets⟩, hmem, rfl⟩ := List.mem_map.mp (key_of_edge h)
    rw [neighbours, lookup_of_mem hkeys hmem] at h
    exact ⟨targets, hmem, h⟩
  · rintro ⟨targets, hmem, hv⟩
    rw [neighbours, lookup_of_mem hkeys hmem]
    exact hv

theorem run_searched : ∃ s, run graph = s.sccs ∧
    Searched (neighbours graph) (nodesOf graph) s ∧
    ∀ v ∈ graph.map Prod.fst, s.index v ≠ none := by
  have hnodes : (nodesOf graph).Nodup := List.nodup_dedup _
  obtain ⟨hsearched, -, hroots⟩ := searchAll_searched hnodes
    (fun u _ _ h => mem_nodesOf.mpr (.inr ⟨u, h⟩)) le_rfl
    (fun _ hv => mem_nodesOf.mpr (.inl hv)) Searched.init
  exact ⟨_, rfl, hsearched, hroots⟩

theorem run_components (graph : List (V × List V)) :
    Components (Edge (neighbours graph)) (run graph) := by
  obtain ⟨s, hrun, hsearched, -⟩ := @run_searched _ _ graph
  exact hrun ▸ hsearched.invariant.components

theorem mem_run : v ∈ (run graph).flatten ↔
    v ∈ graph.map Prod.fst ∨ ∃ u, v ∈ neighbours graph u := by
  obtain ⟨s, hrun, hsearched, hroots⟩ := @run_searched _ _ graph
  have hstack : s.stack = [] := by
    have hlayers := hsearched.invariant.layers
    rw [hsearched.idle] at hlayers
    generalize s.stack = stack at hlayers
    cases hlayers
    rfl
  have hdone (u : V) : s.index u ≠ none ↔ u ∈ s.sccs.flatten := by
    rw [hsearched.invariant.visited, hstack]
    exact or_iff_right List.not_mem_nil
  rw [hrun, ← hdone]
  constructor
  · exact fun hv => mem_nodesOf.mp (hsearched.visited v hv)
  · rintro (hv | ⟨u, hv⟩)
    · exact hroots v hv
    · rw [hdone]
      exact hsearched.invariant.closed u ((hdone u).mp (hroots u (key_of_edge hv))) v hv

end

/-! ## Graphs by rows -/

/-- The dictionary of the rows that are not empty, keys in rising order. -/
def rowGraph (n : ℕ) (row : ℕ → List ℕ) : List (ℕ × List ℕ) :=
  (List.range n).filterMap fun u => if row u = [] then none else some (u, row u)

section

variable {n u v : ℕ} {row : ℕ → List ℕ}

theorem mem_rowGraph {targets : List ℕ} :
    (u, targets) ∈ rowGraph n row ↔ u < n ∧ targets ≠ [] ∧ row u = targets := by
  unfold rowGraph
  rw [List.mem_filterMap]
  constructor
  · rintro ⟨x, hx, h⟩
    split_ifs at h with hempty
    obtain ⟨rfl, rfl⟩ := Prod.mk.inj (Option.some.inj h)
    exact ⟨List.mem_range.mp hx, hempty, rfl⟩
  · rintro ⟨hu, hne, rfl⟩
    exact ⟨u, List.mem_range.mpr hu, if_neg hne⟩

theorem rowGraph_keys (n : ℕ) (row : ℕ → List ℕ) : ((rowGraph n row).map Prod.fst).Nodup := by
  unfold rowGraph
  rw [List.map_filterMap]
  refine List.nodup_range.filterMap fun a b x ha hb => ?_
  obtain ⟨p, hp, rfl⟩ := Option.mem_map.mp ha
  obtain ⟨q, hq, hfst⟩ := Option.mem_map.mp hb
  split_ifs at hp hq
  all_goals try exact absurd hp (Option.not_mem_none _)
  all_goals try exact absurd hq (Option.not_mem_none _)
  rw [Option.mem_some_iff] at hp hq
  rw [← hp, ← hq] at hfst
  exact hfst.symm

theorem mem_neighbours_rowGraph : v ∈ neighbours (rowGraph n row) u ↔ u < n ∧ v ∈ row u := by
  rw [mem_neighbours_iff (rowGraph_keys n row)]
  constructor
  · rintro ⟨targets, hmem, hv⟩
    obtain ⟨hu, -, rfl⟩ := mem_rowGraph.mp hmem
    exact ⟨hu, hv⟩
  · rintro ⟨hu, hv⟩
    exact ⟨row u, mem_rowGraph.mpr ⟨hu, List.ne_nil_of_mem hv, rfl⟩, hv⟩

theorem exists_neighbour_of_key (h : u ∈ (rowGraph n row).map Prod.fst) :
    ∃ v, v ∈ neighbours (rowGraph n row) u := by
  obtain ⟨⟨_, targets⟩, hmem, rfl⟩ := List.mem_map.mp h
  obtain ⟨hu, hne, rfl⟩ := mem_rowGraph.mp hmem
  obtain ⟨v, hv⟩ := List.exists_mem_of_ne_nil _ hne
  exact ⟨v, mem_neighbours_rowGraph.mpr ⟨hu, hv⟩⟩

end

example : run [(0, [1, 0]), (1, [2, 2]), (2, [0, 3])] = [[3], [2, 1, 0]] := by decide

end TarjanScc
