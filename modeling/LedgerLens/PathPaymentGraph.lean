import LedgerLens.Dictionaries
import Mathlib.Algebra.Order.Field.Rat
import Mathlib.Data.Finset.Card
import Mathlib.Data.List.MinMax
import Mathlib.Logic.Function.Basic

/-!
# The hop graph of path payments

`PathPaymentGraph` of `detection/path_payment_engine.py`: the hops between the nodes of wallets and
assets, with the counters beside them. Times are seconds.
-/
namespace PathPaymentGraph

open Dictionaries

def MAX_NODES_PER_WALLET : ℕ := 500
def MAX_EDGES_PER_WALLET : ℤ := 2000
def MAX_GRAPH_EDGES : ℤ := 500000

/-- A wallet and an asset. -/
abbrev Node := String × String

structure HopEdge where
  srcWallet : String
  srcAsset : String
  dstWallet : String
  dstAsset : String
  amount : ℚ
  ledgerTimestamp : ℚ
  operationId : String
  deriving DecidableEq, Repr

def HopEdge.src (e : HopEdge) : Node := (e.srcWallet, e.srcAsset)

def HopEdge.dst (e : HopEdge) : Node := (e.dstWallet, e.dstAsset)

/-! ## The adjacency -/

abbrev Adjacency := Dictionary Node (Dictionary Node (List HopEdge))

namespace Adjacency

def targets (adj : Adjacency) (s : Node) : Dictionary Node (List HopEdge) :=
  (adj.get? s).getD .empty

def stored (adj : Adjacency) (s d : Node) : List HopEdge := ((adj.targets s).get? d).getD []

def write (adj : Adjacency) (s d : Node) (edges : List HopEdge) : Adjacency :=
  adj.set s ((adj.targets s).set d edges)

/-- The node keeps its place, even without hops. -/
def remove (adj : Adjacency) (s d : Node) : Adjacency := adj.set s ((adj.targets s).erase d)

def hopLists (adj : Adjacency) : List (Node × Node × List HopEdge) :=
  adj.entries.flatMap fun s => s.2.entries.map fun d => (s.1, d.1, d.2)

def hops (adj : Adjacency) : List HopEdge := adj.hopLists.flatMap fun l => l.2.2

end Adjacency

/-! ## The graph -/

structure Counters where
  totalEdges : ℤ
  walletNodes : String → Finset Node
  walletEdges : String → ℤ

structure Graph where
  cycleWindowSeconds : ℚ
  maxDepth : ℤ
  adjacency : Adjacency
  counters : Counters
  seenOps : Finset String

def Graph.init (cycleWindowSeconds : ℚ) (maxDepth : ℤ) : Graph where
  cycleWindowSeconds := cycleWindowSeconds
  maxDepth := maxDepth
  adjacency := .empty
  counters := ⟨0, fun _ => ∅, fun _ => 0⟩
  seenOps := ∅

def fresh (cutoff : ℚ) (edges : List HopEdge) : List HopEdge :=
  edges.filter fun e => cutoff ≤ e.ledgerTimestamp

def Counters.drop (c : Counters) (s : Node) (removed : ℕ) : Counters :=
  { c with
    totalEdges := c.totalEdges - removed
    walletEdges := Function.update c.walletEdges s.1 (max 0 (c.walletEdges s.1 - removed)) }

def Counters.discard (c : Counters) (s : Node) : Counters :=
  { c with walletNodes := Function.update c.walletNodes s.1 ((c.walletNodes s.1).erase s) }

def Counters.dropStale (c : Counters) (cutoff : ℚ) (s : Node) (edges : List HopEdge) : Counters :=
  let removed := edges.length - (fresh cutoff edges).length
  if removed = 0 then c else c.drop s removed

def pruneCounters (cutoff : ℚ) (c : Counters) (l : Node × Node × List HopEdge) : Counters :=
  let c := c.dropStale cutoff l.1 l.2.2
  if fresh cutoff l.2.2 = [] then c.discard l.1 else c

def pruneTargets (cutoff : ℚ) (targets : Dictionary Node (List HopEdge)) :
    Dictionary Node (List HopEdge) :=
  targets.filterMap fun _ edges => if fresh cutoff edges = [] then none else fresh cutoff edges

def pruneAdjacency (cutoff : ℚ) (adj : Adjacency) : Adjacency :=
  adj.filterMap fun _ targets =>
    if (pruneTargets cutoff targets).entries = [] then none else pruneTargets cutoff targets

def Graph.pruneOldEdges (g : Graph) (nowTs : ℚ) : Graph :=
  { g with
    adjacency := pruneAdjacency (nowTs - g.cycleWindowSeconds) g.adjacency
    counters := g.adjacency.hopLists.foldl (pruneCounters (nowTs - g.cycleWindowSeconds))
      g.counters }

def Graph.oldest (g : Graph) : Option (Node × Node × List HopEdge) :=
  (g.adjacency.hopLists.filter fun l => l.2.2 ≠ []).argmin fun l =>
    (l.2.2.head?.map HopEdge.ledgerTimestamp).getD 0

def Graph.evictOldest (g : Graph) : Graph :=
  match g.oldest with
  | none => g
  | some (_, _, []) => g
  | some (s, d, _ :: rest) =>
    if rest = [] then
      { g with adjacency := g.adjacency.remove s d, counters := (g.counters.drop s 1).discard s }
    else { g with adjacency := g.adjacency.write s d rest, counters := g.counters.drop s 1 }

def Counters.addNode (c : Counters) (s : Node) : Counters :=
  { c with walletNodes := Function.update c.walletNodes s.1 (insert s (c.walletNodes s.1)) }

def Counters.count (c : Counters) (s : Node) : Counters :=
  { c with
    totalEdges := c.totalEdges + 1
    walletEdges := Function.update c.walletEdges s.1 (c.walletEdges s.1 + 1) }

def Graph.append (g : Graph) (e : HopEdge) : Graph :=
  { g with
    adjacency := g.adjacency.write e.src e.dst (g.adjacency.stored e.src e.dst ++ [e])
    counters := g.counters.count e.src }

/-- The graph that meets the caps of the wallet: without the hops that are too old, and with the
node in its set. -/
def Graph.entered (g : Graph) (e : HopEdge) : Graph :=
  let g := { g with seenOps := insert e.operationId g.seenOps }.pruneOldEdges e.ledgerTimestamp
  { g with counters := g.counters.addNode e.src }

def Graph.Capped (g : Graph) (wallet : String) : Prop :=
  MAX_NODES_PER_WALLET < (g.counters.walletNodes wallet).card ∨
    MAX_EDGES_PER_WALLET ≤ g.counters.walletEdges wallet

instance (g : Graph) (wallet : String) : Decidable (g.Capped wallet) :=
  inferInstanceAs (Decidable (_ ∨ _))

/-- The global cap. -/
def Graph.makeRoom (g : Graph) : Graph :=
  if MAX_GRAPH_EDGES ≤ g.counters.totalEdges then g.evictOldest else g

def Graph.addHop (g : Graph) (e : HopEdge) : Graph :=
  if e.operationId ∈ g.seenOps then g
  else if (g.entered e).Capped e.srcWallet then g.entered e
  else (g.entered e).makeRoom.append e

def Graph.addHops (g : Graph) (es : List HopEdge) : Graph := es.foldl Graph.addHop g

/-! ## What is stored -/

namespace Adjacency

variable {adj : Adjacency} {s d : Node} {edges : List HopEdge} {cutoff : ℚ}

@[simp] theorem targets_set_self (T : Dictionary Node (List HopEdge)) :
    targets (adj.set s T) s = T := by
  rw [targets, Dictionary.get?_set_self, Option.getD_some]

theorem targets_set_of_ne {s' : Node} (h : s' ≠ s) (T : Dictionary Node (List HopEdge)) :
    targets (adj.set s T) s' = adj.targets s' := by
  rw [targets, Dictionary.get?_set_of_ne adj h, targets]

theorem stored_write_self : (adj.write s d edges).stored s d = edges := by
  rw [stored, write, targets_set_self, Dictionary.get?_set_self, Option.getD_some]

theorem stored_write_of_ne {s' d' : Node} (h : (s', d') ≠ (s, d)) :
    (adj.write s d edges).stored s' d' = adj.stored s' d' := by
  rw [stored, write, stored]
  by_cases hs : s' = s
  · subst hs
    have hd : d' ≠ d := fun heq => h (by rw [heq])
    rw [targets_set_self, Dictionary.get?_set_of_ne _ hd]
  · rw [targets_set_of_ne hs]

theorem stored_remove_self : (adj.remove s d).stored s d = [] := by
  rw [stored, remove, targets_set_self, Dictionary.get?_erase_self, Option.getD_none]

theorem stored_remove_of_ne {s' d' : Node} (h : (s', d') ≠ (s, d)) :
    (adj.remove s d).stored s' d' = adj.stored s' d' := by
  rw [stored, remove, stored]
  by_cases hs : s' = s
  · subst hs
    have hd : d' ≠ d := fun heq => h (by rw [heq])
    rw [targets_set_self, Dictionary.get?_erase_of_ne _ hd]
  · rw [targets_set_of_ne hs]

theorem get?_pruneTargets (T : Dictionary Node (List HopEdge)) (d : Node) :
    ((pruneTargets cutoff T).get? d).getD [] = fresh cutoff ((T.get? d).getD []) := by
  rw [pruneTargets, Dictionary.get?_filterMap]
  cases T.get? d with
  | none => rfl
  | some edges =>
    rw [Option.bind_some, Option.getD_some]
    split_ifs with hempty
    · exact hempty.symm
    · rfl

theorem stored_pruneAdjacency :
    (pruneAdjacency cutoff adj).stored s d = fresh cutoff (adj.stored s d) := by
  rw [stored, targets, pruneAdjacency, Dictionary.get?_filterMap, stored, targets]
  cases adj.get? s with
  | none => rfl
  | some T =>
    rw [Option.bind_some, Option.getD_some, ← get?_pruneTargets]
    split_ifs with hempty
    · rw [Option.getD_none, Dictionary.get?, Dictionary.get?, hempty]
      rfl
    · rfl

theorem mem_hopLists : (s, d, edges) ∈ adj.hopLists ↔
    ∃ T, adj.get? s = some T ∧ T.get? d = some edges := by
  rw [hopLists, List.mem_flatMap]
  constructor
  · rintro ⟨⟨s', T⟩, hs, hmem⟩
    obtain ⟨⟨d', edges'⟩, hd, heq⟩ := List.mem_map.mp hmem
    simp only [Prod.mk.injEq] at heq
    obtain ⟨rfl, rfl, rfl⟩ := heq
    exact ⟨T, Dictionary.get?_eq_some.mpr hs, Dictionary.get?_eq_some.mpr hd⟩
  · rintro ⟨T, hs, hd⟩
    exact ⟨(s, T), Dictionary.get?_eq_some.mp hs,
      List.mem_map.mpr ⟨(d, edges), Dictionary.get?_eq_some.mp hd, rfl⟩⟩

theorem stored_of_mem (h : (s, d, edges) ∈ adj.hopLists) : adj.stored s d = edges := by
  obtain ⟨T, hs, hd⟩ := mem_hopLists.mp h
  rw [stored, targets, hs, Option.getD_some, hd, Option.getD_some]

theorem mem_hopLists_stored (h : adj.stored s d ≠ []) : (s, d, adj.stored s d) ∈ adj.hopLists := by
  rw [mem_hopLists]
  rw [stored, targets] at h ⊢
  cases hs : adj.get? s with
  | none =>
    rw [hs] at h
    exact absurd rfl h
  | some T =>
    rw [hs, Option.getD_some] at h
    rw [Option.getD_some]
    cases hd : T.get? d with
    | none =>
      rw [hd] at h
      exact absurd rfl h
    | some edges => exact ⟨T, rfl, hd⟩

theorem mem_hops {e : HopEdge} : e ∈ adj.hops ↔ ∃ s d, e ∈ adj.stored s d := by
  rw [hops, List.mem_flatMap]
  constructor
  · rintro ⟨⟨s, d, edges⟩, hmem, he⟩
    exact ⟨s, d, stored_of_mem hmem ▸ he⟩
  · rintro ⟨s, d, he⟩
    exact ⟨_, mem_hopLists_stored (List.ne_nil_of_mem he), he⟩

/-! ## How many are stored -/

theorem hops_eq (adj : Adjacency) :
    adj.hops = adj.entries.flatMap fun s => s.2.entries.flatMap Prod.snd := by
  rw [hops, hopLists, List.flatMap_assoc]
  refine List.flatMap_congr fun s _ => ?_
  rw [List.flatMap_map]

theorem exists_rest (adj : Adjacency) (s d : Node) : ∃ rest : List HopEdge,
    adj.hops.Perm (adj.stored s d ++ rest) ∧
      (∀ edges, (adj.write s d edges).hops.Perm (edges ++ rest)) ∧
      (adj.remove s d).hops.Perm rest := by
  have hwritten (T : Dictionary Node (List HopEdge)) : hops (adj.set s T) |>.Perm
      (T.entries.flatMap Prod.snd ++ hops (adj.erase s)) := by
    rw [hops_eq, hops_eq]
    exact (Dictionary.entries_set_perm adj s T).flatMap_right _
  have hbefore : adj.hops.Perm
      ((adj.targets s).entries.flatMap Prod.snd ++ hops (adj.erase s)) := by
    rw [hops_eq, hops_eq, targets]
    refine (Dictionary.flatMap_perm adj s _).trans ?_
    cases adj.get? s with
    | none => exact .refl _
    | some T => exact .refl _
  have htargets := Dictionary.flatMap_perm (adj.targets s) d (Prod.snd (α := Node))
  refine ⟨((adj.targets s).erase d).entries.flatMap Prod.snd ++ hops (adj.erase s), ?_,
    fun edges => ?_, hwritten _⟩
  · rw [← List.append_assoc]
    refine hbefore.trans (.append_right _ (htargets.trans (.append_right _ ?_)))
    rw [stored]
    cases (adj.targets s).get? d with
    | none => exact .refl _
    | some edges => exact .refl _
  · rw [← List.append_assoc]
    refine (hwritten _).trans (.append_right _ ?_)
    exact (Dictionary.entries_set_perm (adj.targets s) d edges).flatMap_right _

theorem fresh_append (edges edges' : List HopEdge) :
    fresh cutoff (edges ++ edges') = fresh cutoff edges ++ fresh cutoff edges' :=
  List.filter_append _ _

theorem hops_pruneAdjacency : (pruneAdjacency cutoff adj).hops = fresh cutoff adj.hops := by
  have hinner (l : List (Node × List HopEdge)) :
      (l.filterMap fun e => (if fresh cutoff e.2 = [] then none
        else some (fresh cutoff e.2)).map (e.1, ·)).flatMap Prod.snd =
          fresh cutoff (l.flatMap Prod.snd) := by
    induction l with
    | nil => rfl
    | cons e l ih =>
      rw [List.filterMap_cons, List.flatMap_cons, fresh_append]
      split_ifs with hempty
      · rw [hempty, List.nil_append, ← ih]
        rfl
      · rw [← ih]
        rfl
  have hone (T : Dictionary Node (List HopEdge)) :
      (pruneTargets cutoff T).entries.flatMap Prod.snd =
        fresh cutoff (T.entries.flatMap Prod.snd) := hinner T.entries
  rw [hops_eq, hops_eq, pruneAdjacency, Dictionary.filterMap]
  simp only
  generalize adj.entries = l
  induction l with
  | nil => rfl
  | cons e l ih =>
    rw [List.filterMap_cons, List.flatMap_cons, fresh_append, ← hone]
    split_ifs with hempty
    · rw [hempty, List.flatMap_nil, List.nil_append, ← ih]
      rfl
    · rw [← ih]
      rfl

end Adjacency


namespace Adjacency

variable {adj : Adjacency} {s d : Node} {edges : List HopEdge} {cutoff : ℚ}

theorem mem_hopLists_set {T : Dictionary Node (List HopEdge)} {l : Node × Node × List HopEdge}
    (h : l ∈ hopLists (adj.set s T)) :
    (l.1 = s ∧ (l.2.1, l.2.2) ∈ T.entries) ∨ l ∈ adj.hopLists := by
  obtain ⟨s', d', edges'⟩ := l
  obtain ⟨T', hs, hd⟩ := mem_hopLists.mp h
  by_cases heq : s' = s
  · subst heq
    rw [Dictionary.get?_set_self, Option.some.injEq] at hs
    subst hs
    exact .inl ⟨rfl, Dictionary.get?_eq_some.mp hd⟩
  · rw [Dictionary.get?_set_of_ne adj heq] at hs
    exact .inr (mem_hopLists.mpr ⟨T', hs, hd⟩)

theorem mem_hopLists_of_targets {l : Node × List HopEdge} (h : l ∈ (adj.targets s).entries) :
    (s, l) ∈ adj.hopLists := by
  refine mem_hopLists.mpr ?_
  rw [targets] at h
  cases hs : adj.get? s with
  | none =>
    rw [hs] at h
    cases h
  | some T =>
    rw [hs, Option.getD_some] at h
    exact ⟨T, rfl, Dictionary.get?_eq_some.mpr h⟩

theorem mem_hopLists_write {l : Node × Node × List HopEdge}
    (h : l ∈ (adj.write s d edges).hopLists) : l = (s, d, edges) ∨ l ∈ adj.hopLists := by
  obtain ⟨s', d', edges'⟩ := l
  rcases mem_hopLists_set h with ⟨rfl, hmem⟩ | hmem
  · rcases Dictionary.mem_set.mp hmem with heq | ⟨hmem, -⟩
    · obtain ⟨rfl, rfl⟩ := Prod.mk.inj heq
      exact .inl rfl
    · exact .inr (mem_hopLists_of_targets hmem)
  · exact .inr hmem

theorem mem_hopLists_remove {l : Node × Node × List HopEdge}
    (h : l ∈ (adj.remove s d).hopLists) : l ∈ adj.hopLists := by
  obtain ⟨s', d', edges'⟩ := l
  rcases mem_hopLists_set h with ⟨rfl, hmem⟩ | hmem
  · exact mem_hopLists_of_targets (Dictionary.mem_erase.mp hmem).1
  · exact hmem

theorem ne_nil_of_mem_prune {l : Node × Node × List HopEdge}
    (h : l ∈ (pruneAdjacency cutoff adj).hopLists) : l.2.2 ≠ [] := by
  obtain ⟨s, d, edges⟩ := l
  obtain ⟨T, hs, hd⟩ := mem_hopLists.mp h
  obtain ⟨T', -, heq⟩ := Dictionary.mem_filterMap.mp (Dictionary.get?_eq_some.mp hs)
  split_ifs at heq with hempty
  cases heq
  obtain ⟨edges', -, heq⟩ := Dictionary.mem_filterMap.mp (Dictionary.get?_eq_some.mp hd)
  split_ifs at heq with hempty
  cases heq
  exact hempty

end Adjacency

/-! ## The counters -/

namespace Counters

variable {c : Counters} {s n : Node}

def Tracks (c : Counters) (s : Node) : Prop := s ∈ c.walletNodes s.1

def Homed (c : Counters) : Prop := ∀ w, ∀ s ∈ c.walletNodes w, s.1 = w

theorem walletNodes_discard (w : String) : (c.discard n).walletNodes w =
    if w = n.1 then (c.walletNodes n.1).erase n else c.walletNodes w :=
  Function.update_apply ..

theorem walletNodes_addNode (w : String) : (c.addNode n).walletNodes w =
    if w = n.1 then insert n (c.walletNodes n.1) else c.walletNodes w :=
  Function.update_apply ..

theorem walletEdges_drop (removed : ℕ) (w : String) : (c.drop n removed).walletEdges w =
    if w = n.1 then max 0 (c.walletEdges n.1 - removed) else c.walletEdges w :=
  Function.update_apply ..

theorem walletEdges_count (w : String) : (c.count n).walletEdges w =
    if w = n.1 then c.walletEdges n.1 + 1 else c.walletEdges w :=
  Function.update_apply ..

theorem tracks_discard : (c.discard n).Tracks s ↔ c.Tracks s ∧ s ≠ n := by
  rw [Tracks, walletNodes_discard]
  split_ifs with h
  · rw [Finset.mem_erase, ← h, and_comm, Tracks]
  · have hne : s ≠ n := fun heq => h (congrArg Prod.fst heq)
    rw [Tracks, and_iff_left hne]

theorem tracks_addNode : (c.addNode n).Tracks s ↔ s = n ∨ c.Tracks s := by
  rw [Tracks, walletNodes_addNode]
  split_ifs with h
  · rw [Finset.mem_insert, ← h, Tracks]
  · have hne : s ≠ n := fun heq => h (congrArg Prod.fst heq)
    rw [Tracks, or_iff_right hne]

theorem Homed.discard (h : c.Homed) (n : Node) : (c.discard n).Homed := by
  intro w s hs
  rw [walletNodes_discard] at hs
  split_ifs at hs with hw
  · rw [hw]
    exact h _ s (Finset.mem_of_mem_erase hs)
  · exact h w s hs

theorem Homed.addNode (h : c.Homed) (n : Node) : (c.addNode n).Homed := by
  intro w s hs
  rw [walletNodes_addNode] at hs
  split_ifs at hs with hw
  · rw [hw]
    rcases Finset.mem_insert.mp hs with rfl | hs
    · rfl
    · exact h _ s hs
  · exact h w s hs

end Counters

/-! ### Pruning -/

section Prune

variable {cutoff : ℚ} {c : Counters} {l : Node × Node × List HopEdge}

theorem length_fresh_le (cutoff : ℚ) (edges : List HopEdge) :
    (fresh cutoff edges).length ≤ edges.length :=
  List.length_filter_le ..

theorem walletNodes_dropStale (s : Node) (edges : List HopEdge) :
    (c.dropStale cutoff s edges).walletNodes = c.walletNodes := by
  rw [Counters.dropStale]
  split_ifs <;> rfl

theorem totalEdges_dropStale (s : Node) (edges : List HopEdge) :
    (c.dropStale cutoff s edges).totalEdges =
      c.totalEdges - edges.length + (fresh cutoff edges).length := by
  have hle := length_fresh_le cutoff edges
  rw [Counters.dropStale]
  split_ifs
  · omega
  · simp only [Counters.drop]
    omega

theorem walletEdges_dropStale {s : Node} {edges : List HopEdge} {w : String}
    (h : w = s.1 → edges.length ≤ c.walletEdges w) :
    (c.dropStale cutoff s edges).walletEdges w = if w = s.1
      then c.walletEdges w - edges.length + (fresh cutoff edges).length else c.walletEdges w := by
  have hle := length_fresh_le cutoff edges
  rw [Counters.dropStale]
  by_cases hw : w = s.1
  · have hbound := h hw
    rw [if_pos hw]
    split_ifs
    · omega
    · rw [Counters.walletEdges_drop, if_pos hw, ← hw]
      omega
  · rw [if_neg hw]
    split_ifs
    · rfl
    · rw [Counters.walletEdges_drop, if_neg hw]

theorem tracks_pruneCounters {s : Node} :
    (pruneCounters cutoff c l).Tracks s ↔ c.Tracks s ∧ ¬ (l.1 = s ∧ fresh cutoff l.2.2 = []) := by
  have hdrop : (c.dropStale cutoff l.1 l.2.2).Tracks s ↔ c.Tracks s := by
    rw [Counters.Tracks, walletNodes_dropStale, Counters.Tracks]
  rw [pruneCounters]
  split_ifs with hempty
  · rw [Counters.tracks_discard, hdrop, and_iff_left hempty, ne_comm]
  · rw [hdrop, and_iff_left (fun h => hempty h.2)]

theorem homed_pruneCounters (h : c.Homed) : (pruneCounters cutoff c l).Homed := by
  have hdrop : (c.dropStale cutoff l.1 l.2.2).Homed := by
    rw [Counters.Homed, walletNodes_dropStale]
    exact h
  rw [pruneCounters]
  split_ifs
  · exact hdrop.discard _
  · exact hdrop

theorem totalEdges_pruneCounters : (pruneCounters cutoff c l).totalEdges =
    c.totalEdges - l.2.2.length + (fresh cutoff l.2.2).length := by
  rw [← totalEdges_dropStale l.1 l.2.2, pruneCounters]
  split_ifs <;> rfl

variable (cutoff) in
theorem walletEdges_pruneCounters {w : String} (h : w = l.1.1 → l.2.2.length ≤ c.walletEdges w) :
    (pruneCounters cutoff c l).walletEdges w = if w = l.1.1
      then c.walletEdges w - l.2.2.length + (fresh cutoff l.2.2).length else c.walletEdges w := by
  rw [← walletEdges_dropStale h, pruneCounters]
  split_ifs <;> rfl

theorem tracks_foldl_prune (ls : List (Node × Node × List HopEdge)) (c : Counters) {s : Node} :
    (ls.foldl (pruneCounters cutoff) c).Tracks s ↔
      c.Tracks s ∧ ∀ l ∈ ls, ¬ (l.1 = s ∧ fresh cutoff l.2.2 = []) := by
  induction ls generalizing c with
  | nil => simp
  | cons l ls ih => rw [List.foldl_cons, ih, tracks_pruneCounters, List.forall_mem_cons, and_assoc]

theorem homed_foldl_prune (ls : List (Node × Node × List HopEdge)) {c : Counters} (h : c.Homed) :
    (ls.foldl (pruneCounters cutoff) c).Homed := by
  induction ls generalizing c with
  | nil => exact h
  | cons l ls ih => exact ih (homed_pruneCounters h)

theorem totalEdges_foldl_prune (ls : List (Node × Node × List HopEdge)) (c : Counters) :
    (ls.foldl (pruneCounters cutoff) c).totalEdges = c.totalEdges -
      (ls.flatMap fun l => l.2.2).length + (fresh cutoff (ls.flatMap fun l => l.2.2)).length := by
  induction ls generalizing c with
  | nil => simp [fresh]
  | cons l ls ih =>
    rw [List.foldl_cons, ih, totalEdges_pruneCounters, List.flatMap_cons, Adjacency.fresh_append,
      List.length_append, List.length_append]
    omega

theorem countP_srcWallet {edges : List HopEdge} {s : Node} (h : ∀ e ∈ edges, e.src = s)
    (w : String) : edges.countP (·.srcWallet = w) = if w = s.1 then edges.length else 0 := by
  split_ifs with hw
  · refine List.countP_eq_length.mpr fun e he => decide_eq_true ?_
    rw [hw, ← h e he, HopEdge.src]
  · refine List.countP_eq_zero.mpr fun e he => ?_
    rw [decide_eq_true_eq]
    intro heq
    rw [← h e he] at hw
    exact hw heq.symm

/-- The induction is on the lists: what they count is in the counter beside `r`. -/
theorem walletEdges_foldl_prune (cutoff : ℚ) (ls : List (Node × Node × List HopEdge)) {c : Counters}
    {w : String} {r : ℕ} (hkeyed : ∀ l ∈ ls, ∀ e ∈ l.2.2, e.src = l.1)
    (hc : c.walletEdges w = (ls.flatMap fun l => l.2.2).countP (·.srcWallet = w) + r) :
    (ls.foldl (pruneCounters cutoff) c).walletEdges w =
      (fresh cutoff (ls.flatMap fun l => l.2.2)).countP (·.srcWallet = w) + r := by
  induction ls generalizing c r with
  | nil => exact hc
  | cons l ls ih =>
    have hl := hkeyed l List.mem_cons_self
    have hfresh : ∀ e ∈ fresh cutoff l.2.2, e.src = l.1 :=
      fun e he => hl e (List.mem_of_mem_filter he)
    rw [List.flatMap_cons, List.countP_append, countP_srcWallet hl] at hc
    rw [List.foldl_cons, List.flatMap_cons, Adjacency.fresh_append, List.countP_append,
      countP_srcWallet hfresh]
    have hstep := walletEdges_pruneCounters cutoff (c := c) (l := l) (w := w) fun hw => by
      rw [if_pos hw] at hc
      omega
    rw [ih (r := r + if w = l.1.1 then (fresh cutoff l.2.2).length else 0)
      (fun l hmem => hkeyed l (List.mem_cons_of_mem _ hmem)) ?_]
    · omega
    · rw [hstep]
      split_ifs at hc ⊢ <;> omega

end Prune

/-! ## The bookkeeping -/

/-- What every graph keeps: the hops stand under their nodes, and the counters of hops are exact. -/
structure Graph.Counted (g : Graph) : Prop where
  filled : ∀ l ∈ g.adjacency.hopLists, l.2.2 ≠ []
  keyed : ∀ l ∈ g.adjacency.hopLists, ∀ e ∈ l.2.2, e.src = l.1 ∧ e.dst = l.2.1
  homed : g.counters.Homed
  totalEdges : g.counters.totalEdges = g.adjacency.hops.length
  walletEdges : ∀ w, g.counters.walletEdges w = g.adjacency.hops.countP (·.srcWallet = w)

def Adjacency.Stands (adj : Adjacency) (s : Node) : Prop := ∃ d, adj.stored s d ≠ []

def Adjacency.Loses (adj adj' : Adjacency) (s : Node) : Prop :=
  ∃ d, adj.stored s d ≠ [] ∧ adj'.stored s d = []

/-- The three counters are exact. -/
structure Graph.Bookkeeping (g : Graph) : Prop where
  totalEdges : g.counters.totalEdges = g.adjacency.hops.length
  walletEdges : ∀ w, g.counters.walletEdges w = g.adjacency.hops.countP (·.srcWallet = w)
  walletNodes : ∀ w s, s ∈ g.counters.walletNodes w ↔ s.1 = w ∧ g.adjacency.Stands s

theorem Graph.Counted.bookkeeping_iff {g : Graph} (h : g.Counted) :
    g.Bookkeeping ↔ ∀ s, g.counters.Tracks s ↔ g.adjacency.Stands s := by
  constructor
  · intro hbook s
    rw [Counters.Tracks, hbook.walletNodes, and_iff_right rfl]
  · intro htracks
    refine ⟨h.totalEdges, h.walletEdges, fun w s => ?_⟩
    constructor
    · intro hs
      have hw := h.homed w s hs
      subst hw
      exact ⟨rfl, (htracks s).mp hs⟩
    · rintro ⟨rfl, hs⟩
      exact (htracks s).mpr hs

theorem counted_init (window : ℚ) (depth : ℤ) : (Graph.init window depth).Counted where
  filled _ hl := absurd hl List.not_mem_nil
  keyed _ hl := absurd hl List.not_mem_nil
  homed _ _ hs := absurd hs (Finset.notMem_empty _)
  totalEdges := rfl
  walletEdges _ := rfl

section Steps

variable {g : Graph} {e : HopEdge} {s : Node}

/-! ### Pruning -/

theorem Graph.Counted.mem_stored (h : g.Counted) {s d : Node} {e : HopEdge}
    (he : e ∈ g.adjacency.stored s d) : e.src = s ∧ e.dst = d :=
  h.keyed _ (Adjacency.mem_hopLists_stored (List.ne_nil_of_mem he)) e he

theorem Graph.Counted.pruneOldEdges (h : g.Counted) (nowTs : ℚ) :
    (g.pruneOldEdges nowTs).Counted where
  filled _ := Adjacency.ne_nil_of_mem_prune
  keyed := by
    rintro ⟨s, d, edges⟩ hl e he
    have hstored := Adjacency.stored_of_mem hl
    rw [Graph.pruneOldEdges, Adjacency.stored_pruneAdjacency] at hstored
    rw [← hstored] at he
    exact h.mem_stored (List.mem_of_mem_filter he)
  homed := homed_foldl_prune _ h.homed
  totalEdges := by
    rw [Graph.pruneOldEdges, totalEdges_foldl_prune, h.totalEdges, Adjacency.hops_pruneAdjacency,
      Adjacency.hops]
    omega
  walletEdges w := by
    have hw := walletEdges_foldl_prune (nowTs - g.cycleWindowSeconds)
      g.adjacency.hopLists (c := g.counters) (w := w) (r := 0)
        (fun l hl e he => (h.keyed l hl e he).1)
      (by rw [h.walletEdges, Adjacency.hops]; rfl)
    rw [Graph.pruneOldEdges, hw, Adjacency.hops_pruneAdjacency, Adjacency.hops]
    rfl

theorem tracks_pruneOldEdges (h : g.Counted) (nowTs : ℚ) :
    (g.pruneOldEdges nowTs).counters.Tracks s ↔
      g.counters.Tracks s ∧ ¬ g.adjacency.Loses (g.pruneOldEdges nowTs).adjacency s := by
  rw [Graph.pruneOldEdges, tracks_foldl_prune]
  refine and_congr_right fun _ => ?_
  rw [Adjacency.Loses, not_exists]
  constructor
  · rintro hall d ⟨hne, hnil⟩
    rw [Adjacency.stored_pruneAdjacency] at hnil
    exact hall _ (Adjacency.mem_hopLists_stored hne) ⟨rfl, hnil⟩
  · rintro hall ⟨s', d, edges⟩ hl ⟨rfl, hnil⟩
    have hstored := Adjacency.stored_of_mem hl
    refine hall d ⟨hstored ▸ h.filled _ hl, ?_⟩
    rw [Adjacency.stored_pruneAdjacency, hstored, hnil]

/-! ### Evicting -/

theorem Graph.oldest_mem {l : Node × Node × List HopEdge} (h : g.oldest = some l) :
    l ∈ g.adjacency.hopLists := by
  rw [Graph.oldest] at h
  exact List.mem_of_mem_filter (List.argmin_mem h)

theorem evictOldest_cases (g : Graph) : g.evictOldest = g ∨
    ∃ s d first rest, g.adjacency.stored s d = first :: rest ∧
      g.evictOldest = if rest = []
        then { g with
          adjacency := g.adjacency.remove s d, counters := (g.counters.drop s 1).discard s }
        else { g with
          adjacency := g.adjacency.write s d rest, counters := g.counters.drop s 1 } := by
  cases hold : g.oldest with
  | none =>
    rw [Graph.evictOldest, hold]
    exact .inl rfl
  | some l =>
    obtain ⟨s, d, edges⟩ := l
    cases edges with
    | nil =>
      rw [Graph.evictOldest, hold]
      exact .inl rfl
    | cons first rest =>
      rw [Graph.evictOldest, hold]
      exact .inr ⟨s, d, first, rest, Adjacency.stored_of_mem (Graph.oldest_mem hold), rfl⟩

theorem Graph.Counted.evictOldest (h : g.Counted) : g.evictOldest.Counted := by
  rcases evictOldest_cases g with heq | ⟨s, d, first, rest, hstored, heq⟩
  · rw [heq]
    exact h
  have hfirst : first ∈ g.adjacency.stored s d := hstored ▸ List.mem_cons_self
  have hsrc : first.srcWallet = s.1 := congrArg Prod.fst (h.mem_stored hfirst).1
  obtain ⟨others, hperm, hwrite, hremove⟩ := Adjacency.exists_rest g.adjacency s d
  rw [hstored] at hperm
  have htotal := h.totalEdges
  rw [hperm.length_eq, List.cons_append, List.length_cons] at htotal
  have hedges (w : String) : (g.counters.drop s 1).walletEdges w =
      (rest ++ others).countP (·.srcWallet = w) := by
    have hw := h.walletEdges w
    rw [hperm.countP_eq, List.cons_append, List.countP_cons, hsrc] at hw
    rw [Counters.walletEdges_drop]
    by_cases hs : w = s.1
    · subst hs
      simp only [decide_true, if_true] at hw
      rw [if_pos rfl]
      omega
    · simp only [decide_eq_true_eq, Ne.symm hs, if_false] at hw
      rw [if_neg hs]
      omega
  rw [heq]
  split_ifs with hrest
  · subst hrest
    refine ⟨fun l hl => h.filled l (Adjacency.mem_hopLists_remove hl),
      fun l hl => h.keyed l (Adjacency.mem_hopLists_remove hl), h.homed.discard s, ?_, fun w => ?_⟩
    · rw [hremove.length_eq]
      simp only [Counters.discard, Counters.drop, List.nil_append] at htotal ⊢
      omega
    · rw [hremove.countP_eq]
      exact hedges w
  · refine ⟨fun l hl => ?_, fun l hl => ?_, h.homed, ?_, fun w => ?_⟩
    · rcases Adjacency.mem_hopLists_write hl with rfl | hl
      · exact hrest
      · exact h.filled l hl
    · rcases Adjacency.mem_hopLists_write hl with rfl | hl
      · exact fun e he => h.mem_stored (hstored ▸ List.mem_cons_of_mem _ he)
      · exact h.keyed l hl
    · rw [(hwrite rest).length_eq]
      simp only [Counters.drop]
      omega
    · rw [(hwrite rest).countP_eq]
      exact hedges w

theorem tracks_evictOldest : g.evictOldest.counters.Tracks s ↔
    g.counters.Tracks s ∧ ¬ g.adjacency.Loses g.evictOldest.adjacency s := by
  rcases evictOldest_cases g with heq | ⟨n, d, first, rest, hstored, heq⟩
  · have hkeeps : ¬ g.adjacency.Loses g.adjacency s := fun ⟨_, hne, hnil⟩ => hne hnil
    rw [heq, and_iff_left hkeeps]
  rw [heq]
  split_ifs with hrest
  · rw [Counters.tracks_discard, Counters.Tracks, Counters.drop]
    refine and_congr_right fun _ => ?_
    constructor
    · rintro hne ⟨d', hstands, hnil⟩
      rw [Adjacency.stored_remove_of_ne fun h => hne (congrArg Prod.fst h)] at hnil
      exact hstands hnil
    · rintro hkeeps rfl
      refine hkeeps ⟨d, ?_, Adjacency.stored_remove_self⟩
      rw [hstored]
      exact List.cons_ne_nil _ _
  · refine (and_iff_left ?_).symm
    rintro ⟨d', hstands, hnil⟩
    by_cases hpair : (s, d') = (n, d)
    · obtain ⟨rfl, rfl⟩ := Prod.mk.inj hpair
      rw [Adjacency.stored_write_self] at hnil
      exact hrest hnil
    · rw [Adjacency.stored_write_of_ne hpair] at hnil
      exact hstands hnil

/-! ### Adding -/

theorem Graph.Counted.entered (h : g.Counted) (e : HopEdge) : (g.entered e).Counted := by
  have hseen : ({ g with seenOps := insert e.operationId g.seenOps } : Graph).Counted :=
    ⟨h.filled, h.keyed, h.homed, h.totalEdges, h.walletEdges⟩
  have hpruned := hseen.pruneOldEdges e.ledgerTimestamp
  exact ⟨hpruned.filled, hpruned.keyed, hpruned.homed.addNode _, hpruned.totalEdges,
    hpruned.walletEdges⟩

theorem tracks_entered (h : g.Counted) (e : HopEdge) : (g.entered e).counters.Tracks s ↔
    s = e.src ∨ (g.counters.Tracks s ∧ ¬ g.adjacency.Loses (g.entered e).adjacency s) := by
  have hseen : ({ g with seenOps := insert e.operationId g.seenOps } : Graph).Counted :=
    ⟨h.filled, h.keyed, h.homed, h.totalEdges, h.walletEdges⟩
  rw [Graph.entered, Counters.tracks_addNode, tracks_pruneOldEdges hseen]

theorem Graph.Counted.makeRoom (h : g.Counted) : g.makeRoom.Counted := by
  rw [Graph.makeRoom]
  split_ifs
  · exact h.evictOldest
  · exact h

theorem tracks_makeRoom : g.makeRoom.counters.Tracks s ↔
    g.counters.Tracks s ∧ ¬ g.adjacency.Loses g.makeRoom.adjacency s := by
  rw [Graph.makeRoom]
  split_ifs
  · exact tracks_evictOldest
  · exact (and_iff_left fun ⟨_, hne, hnil⟩ => hne hnil).symm

theorem Graph.Counted.append (h : g.Counted) (e : HopEdge) : (g.append e).Counted := by
  obtain ⟨others, hperm, hwrite, -⟩ := Adjacency.exists_rest g.adjacency e.src e.dst
  have hwrite := hwrite (g.adjacency.stored e.src e.dst ++ [e])
  have hkeyed : ∀ e' ∈ g.adjacency.stored e.src e.dst ++ [e], e'.src = e.src ∧ e'.dst = e.dst := by
    intro e' he'
    rcases List.mem_append.mp he' with he' | he'
    · exact h.mem_stored he'
    · rw [List.mem_singleton.mp he']
      exact ⟨rfl, rfl⟩
  refine ⟨fun l hl => ?_, fun l hl => ?_, h.homed, ?_, fun w => ?_⟩
  · rcases Adjacency.mem_hopLists_write hl with rfl | hl
    · exact List.append_ne_nil_of_right_ne_nil _ (List.cons_ne_nil _ _)
    · exact h.filled l hl
  · rcases Adjacency.mem_hopLists_write hl with rfl | hl
    · exact hkeyed
    · exact h.keyed l hl
  · have htotal := h.totalEdges
    rw [hperm.length_eq, List.length_append] at htotal
    simp only [Graph.append, Counters.count]
    rw [hwrite.length_eq, List.length_append, List.length_append, List.length_singleton]
    omega
  · have hw := h.walletEdges w
    rw [hperm.countP_eq, List.countP_append] at hw
    simp only [Graph.append]
    rw [Counters.walletEdges_count, hwrite.countP_eq, List.countP_append, List.countP_append,
      List.countP_singleton]
    have hsrc : e.srcWallet = e.src.1 := rfl
    rw [hsrc]
    by_cases hs : w = e.src.1
    · subst hs
      rw [if_pos rfl, if_pos (decide_eq_true rfl)]
      omega
    · rw [if_neg hs, if_neg (by simpa using Ne.symm hs)]
      omega

theorem stands_append (g : Graph) (e : HopEdge) :
    (g.append e).adjacency.Stands s ↔ s = e.src ∨ g.adjacency.Stands s := by
  constructor
  · rintro ⟨d, hne⟩
    by_cases hpair : (s, d) = (e.src, e.dst)
    · exact .inl (congrArg Prod.fst hpair)
    · rw [Graph.append, Adjacency.stored_write_of_ne hpair] at hne
      exact .inr ⟨d, hne⟩
  · intro h
    by_cases hs : s = e.src
    · subst hs
      refine ⟨e.dst, ?_⟩
      rw [Graph.append, Adjacency.stored_write_self]
      exact List.append_ne_nil_of_right_ne_nil _ (List.cons_ne_nil _ _)
    · obtain ⟨d, hne⟩ := h.resolve_left hs
      have hpair : (s, d) ≠ (e.src, e.dst) := fun heq => hs (congrArg Prod.fst heq)
      refine ⟨d, ?_⟩
      rwa [Graph.append, Adjacency.stored_write_of_ne hpair]

theorem Graph.Counted.addHop (h : g.Counted) (e : HopEdge) : (g.addHop e).Counted := by
  rw [Graph.addHop]
  split_ifs
  · exact h
  · exact h.entered e
  · exact (h.entered e).makeRoom.append e

def Graph.left (g : Graph) (e : HopEdge) : Adjacency :=
  if (g.entered e).Capped e.srcWallet then (g.entered e).adjacency
  else (g.entered e).makeRoom.adjacency

/-- A node that loses its hops to another loses all its hops. The node of the new hop has hops left
when the caps keep the new one out, and otherwise loses none of its last hops to the global cap. -/
structure Graph.Clean (g : Graph) (e : HopEdge) : Prop where
  others : ∀ s, s ≠ e.src → g.adjacency.Loses (g.left e) s → ¬ (g.left e).Stands s
  own : if (g.entered e).Capped e.srcWallet then (g.left e).Stands e.src
    else ¬ (g.entered e).adjacency.Loses (g.left e) e.src

def Graph.Careful (g : Graph) (e : HopEdge) : Prop := e.operationId ∈ g.seenOps ∨ g.Clean e

theorem stored_entered (g : Graph) (e : HopEdge) (s d : Node) :
    (g.entered e).adjacency.stored s d =
      fresh (e.ledgerTimestamp - g.cycleWindowSeconds) (g.adjacency.stored s d) :=
  Adjacency.stored_pruneAdjacency

theorem stored_makeRoom_eq_nil (g : Graph) {d : Node} (h : g.adjacency.stored s d = []) :
    g.makeRoom.adjacency.stored s d = [] := by
  rw [Graph.makeRoom]
  split_ifs
  · rcases evictOldest_cases g with heq | ⟨n, d', first, rest, hstored, heq⟩
    · rw [heq, h]
    · have hpair : (s, d) ≠ (n, d') := by
        intro hpair
        obtain ⟨rfl, rfl⟩ := Prod.mk.inj hpair
        rw [h] at hstored
        cases hstored
      rw [heq]
      split_ifs
      · rw [Adjacency.stored_remove_of_ne hpair, h]
      · rw [Adjacency.stored_write_of_ne hpair, h]
  · exact h

theorem stored_left_eq_nil {d : Node} (h : (g.entered e).adjacency.stored s d = []) :
    (g.left e).stored s d = [] := by
  rw [Graph.left]
  split_ifs
  · exact h
  · exact stored_makeRoom_eq_nil _ h

theorem stored_entered_eq_nil {d : Node} (h : g.adjacency.stored s d = []) :
    (g.entered e).adjacency.stored s d = [] := by
  rw [stored_entered, h]
  rfl

theorem loses_left_iff : g.adjacency.Loses (g.left e) s ↔
    g.adjacency.Loses (g.entered e).adjacency s ∨
      (g.entered e).adjacency.Loses (g.left e) s := by
  constructor
  · rintro ⟨d, hne, hnil⟩
    by_cases hentered : (g.entered e).adjacency.stored s d = []
    · exact .inl ⟨d, hne, hentered⟩
    · exact .inr ⟨d, hentered, hnil⟩
  · rintro (⟨d, hne, hnil⟩ | ⟨d, hne, hnil⟩)
    · exact ⟨d, hne, stored_left_eq_nil hnil⟩
    · exact ⟨d, fun h => hne (stored_entered_eq_nil h), hnil⟩

/-- Nodes whose hops the new one does not touch: they stay tracked when they lose nothing. -/
theorem other_exact_iff (hs : g.counters.Tracks s ↔ g.adjacency.Stands s) :
    ((g.counters.Tracks s ∧ ¬ g.adjacency.Loses (g.left e) s) ↔ (g.left e).Stands s) ↔
      (g.adjacency.Loses (g.left e) s → ¬ (g.left e).Stands s) := by
  have hback : (g.left e).Stands s → g.adjacency.Stands s := fun ⟨d, hne⟩ =>
    ⟨d, fun h => hne (stored_left_eq_nil (stored_entered_eq_nil h))⟩
  have hkeeps (hstands : g.adjacency.Stands s) (hkept : ¬ g.adjacency.Loses (g.left e) s) :
      (g.left e).Stands s := by
    obtain ⟨d, hne⟩ := hstands
    exact ⟨d, fun hnil => hkept ⟨d, hne, hnil⟩⟩
  rw [hs]
  constructor
  · intro hiff hloses hstands
    exact (hiff.mpr hstands).2 hloses
  · intro hclean
    refine ⟨fun ⟨hstands, hkept⟩ => hkeeps hstands hkept, fun hstands => ?_⟩
    exact ⟨hback hstands, fun hloses => hclean hloses hstands⟩

/-- Adding a hop keeps the bookkeeping exactly when the graph takes it carefully. -/
theorem bookkeeping_addHop_iff (h : g.Counted) (hbook : g.Bookkeeping) (e : HopEdge) :
    (g.addHop e).Bookkeeping ↔ g.Careful e := by
  have hexact := h.bookkeeping_iff.mp hbook
  rw [(h.addHop e).bookkeeping_iff, Graph.Careful, Graph.addHop]
  by_cases hseen : e.operationId ∈ g.seenOps
  · rw [if_pos hseen]
    exact iff_of_true hexact (.inl hseen)
  rw [if_neg hseen, or_iff_right hseen]
  have hother (s : Node) := other_exact_iff (e := e) (hexact s)
  by_cases hcap : (g.entered e).Capped e.srcWallet
  · have hleft : g.left e = (g.entered e).adjacency := if_pos hcap
    rw [if_pos hcap]
    constructor
    · intro hafter
      refine ⟨fun s hs => (hother s).mp ?_, ?_⟩
      · rw [hleft, ← hafter s, tracks_entered h, or_iff_right hs]
      · rw [if_pos hcap, hleft, ← hafter e.src, tracks_entered h]
        exact .inl rfl
    · rintro ⟨hothers, hown⟩ s
      rw [if_pos hcap, hleft] at hown
      rw [tracks_entered h]
      by_cases hs : s = e.src
      · subst hs
        exact iff_of_true (.inl rfl) hown
      · rw [or_iff_right hs, ← hleft]
        exact (hother s).mpr (hothers s hs)
  · have hleft : g.left e = (g.entered e).makeRoom.adjacency := if_neg hcap
    have htracks (s : Node) : ((g.entered e).makeRoom.append e).counters.Tracks s ↔
        (s = e.src ∨ (g.counters.Tracks s ∧ ¬ g.adjacency.Loses (g.entered e).adjacency s)) ∧
          ¬ (g.entered e).adjacency.Loses (g.left e) s := by
      rw [hleft, ← tracks_entered h]
      exact tracks_makeRoom
    have hrest {s : Node} (hs : s ≠ e.src) :
        ((g.entered e).makeRoom.append e).counters.Tracks s ↔
          g.counters.Tracks s ∧ ¬ g.adjacency.Loses (g.left e) s := by
      rw [htracks, or_iff_right hs, loses_left_iff, not_or, and_assoc]
    rw [if_neg hcap]
    constructor
    · intro hafter
      refine ⟨fun s hs => (hother s).mp ?_, ?_⟩
      · rw [← hrest hs, hafter s, stands_append, or_iff_right hs, hleft]
      · rw [if_neg hcap]
        exact ((htracks e.src).mp ((hafter e.src).mpr ((stands_append _ e).mpr (.inl rfl)))).2
    · rintro ⟨hothers, hown⟩ s
      rw [if_neg hcap] at hown
      rw [stands_append, ← hleft]
      by_cases hs : s = e.src
      · subst hs
        exact iff_of_true ((htracks _).mpr ⟨.inl rfl, hown⟩) (.inl rfl)
      · rw [or_iff_right hs, hrest hs]
        exact (hother s).mpr (hothers s hs)

end Steps

/-! ### Telling hops apart -/

structure Graph.Distinct (g : Graph) : Prop where
  seen : ∀ e ∈ g.adjacency.hops, e.operationId ∈ g.seenOps
  once : (g.adjacency.hops.map HopEdge.operationId).Nodup

theorem Graph.Distinct.of_subperm {g g' : Graph} (h : g.Distinct)
    (hsub : g'.adjacency.hops.Subperm g.adjacency.hops) (hseen : g.seenOps ⊆ g'.seenOps) :
    g'.Distinct := by
  refine ⟨fun e he => hseen (h.seen e (hsub.subset he)), ?_⟩
  obtain ⟨l, hperm, hsublist⟩ := hsub
  exact (hperm.map _).nodup_iff.mp (h.once.sublist (hsublist.map _))

theorem hops_evictOldest (g : Graph) :
    g.evictOldest.adjacency.hops.Subperm g.adjacency.hops := by
  rcases evictOldest_cases g with heq | ⟨s, d, first, rest, hstored, heq⟩
  · rw [heq]
  obtain ⟨others, hperm, hwrite, hremove⟩ := Adjacency.exists_rest g.adjacency s d
  rw [hstored] at hperm
  rw [heq]
  split_ifs with hrest
  · exact hremove.subperm.trans ((List.sublist_append_right _ _).subperm.trans hperm.symm.subperm)
  · refine (hwrite rest).subperm.trans (List.Subperm.trans ?_ hperm.symm.subperm)
    exact (List.sublist_cons_self _ _).subperm

theorem Graph.Distinct.addHop {g : Graph} (h : g.Distinct) (e : HopEdge) :
    (g.addHop e).Distinct := by
  have hentered : (g.entered e).adjacency.hops.Subperm g.adjacency.hops := by
    simp only [Graph.entered, Graph.pruneOldEdges]
    rw [Adjacency.hops_pruneAdjacency]
    exact List.filter_sublist.subperm
  rw [Graph.addHop]
  split_ifs with hseen hcap
  · exact h
  · exact h.of_subperm hentered (Finset.subset_insert _ _)
  have hroom : (g.entered e).makeRoom.adjacency.hops.Subperm g.adjacency.hops := by
    rw [Graph.makeRoom]
    split_ifs
    · exact (hops_evictOldest _).trans hentered
    · exact hentered
  have hops : (g.entered e).makeRoom.seenOps = insert e.operationId g.seenOps := by
    rw [Graph.makeRoom]
    split_ifs
    · rcases evictOldest_cases (g.entered e) with heq | ⟨s, d, first, rest, -, heq⟩
      · rw [heq]
        rfl
      · rw [heq]
        split_ifs <;> rfl
    · rfl
  have hbefore := h.of_subperm hroom (hops ▸ Finset.subset_insert _ _)
  obtain ⟨others, hperm, hwrite, -⟩ :=
    Adjacency.exists_rest (g.entered e).makeRoom.adjacency e.src e.dst
  have hadded : ((g.entered e).makeRoom.append e).adjacency.hops.Perm
      (e :: (g.entered e).makeRoom.adjacency.hops) := by
    refine (hwrite _).trans (.trans ?_ (hperm.symm.cons e))
    rw [List.append_assoc, List.singleton_append]
    exact List.perm_middle
  refine ⟨fun e' he' => ?_, ?_⟩
  · rcases List.mem_cons.mp (hadded.mem_iff.mp he') with rfl | he'
    · exact hops ▸ Finset.mem_insert_self _ _
    · exact hbefore.seen e' he'
  · refine (hadded.map _).nodup_iff.mpr (List.nodup_cons.mpr ⟨fun hmem => ?_, hbefore.once⟩)
    obtain ⟨e', he', heq⟩ := List.mem_map.mp hmem
    exact hseen (heq ▸ h.seen e' (hroom.subset he'))

/-! ## Every run -/

theorem Graph.Distinct.addHops {g : Graph} (h : g.Distinct) (es : List HopEdge) :
    (g.addHops es).Distinct := by
  induction es generalizing g with
  | nil => exact h
  | cons e es ih => exact ih (h.addHop e)

theorem Graph.Counted.addHops {g : Graph} (h : g.Counted) (es : List HopEdge) :
    (g.addHops es).Counted := by
  induction es generalizing g with
  | nil => exact h
  | cons e es ih => exact ih (h.addHop e)

theorem Graph.addHops_append (g : Graph) (es es' : List HopEdge) :
    g.addHops (es ++ es') = (g.addHops es).addHops es' := List.foldl_append ..

section Results

/-- Along a run of additions the counters are exact in every graph reached if and only if every hop
is taken carefully. -/
theorem addHops_bookkeeping_iff (window : ℚ) (depth : ℤ) (es : List HopEdge) :
    (∀ before, before <+: es → ((Graph.init window depth).addHops before).Bookkeeping) ↔
      ∀ before e after, es = before ++ e :: after →
        ((Graph.init window depth).addHops before).Careful e := by
  have hcounted (before : List HopEdge) := (counted_init window depth).addHops before
  have hstep (before : List HopEdge) (e : HopEdge) :
      (Graph.init window depth).addHops (before ++ [e]) =
        ((Graph.init window depth).addHops before).addHop e := Graph.addHops_append _ before [e]
  constructor
  · rintro hall before e after rfl
    have hbefore := hall before (List.prefix_append ..)
    have hafter := hall (before ++ [e]) ⟨after, by rw [List.append_assoc, List.singleton_append]⟩
    rw [hstep] at hafter
    exact (bookkeeping_addHop_iff (hcounted before) hbefore e).mp hafter
  · intro hcareful before
    induction before using List.reverseRecOn with
    | nil =>
      refine fun _ => (hcounted []).bookkeeping_iff.mpr fun s => iff_of_false ?_ ?_
      · exact Finset.notMem_empty _
      · exact fun ⟨d, hne⟩ => hne rfl
    | append_singleton before e ih =>
      rintro ⟨after, hes⟩
      have hsplit : es = before ++ e :: after := by
        rw [← hes, List.append_assoc, List.singleton_append]
      rw [hstep]
      refine (bookkeeping_addHop_iff (hcounted before) (ih ?_) e).mpr
        (hcareful before e after hsplit)
      exact hsplit ▸ List.prefix_append ..

theorem addHops_counts (window : ℚ) (depth : ℤ) (es : List HopEdge) :
    let g := (Graph.init window depth).addHops es
    g.counters.totalEdges = g.adjacency.hops.length ∧
      ∀ w, g.counters.walletEdges w = g.adjacency.hops.countP (·.srcWallet = w) :=
  ⟨((counted_init window depth).addHops es).totalEdges,
    ((counted_init window depth).addHops es).walletEdges⟩

end Results

section Examples

/-- Two hops of one node, and a third an hour after the first. -/
def partingHops : List HopEdge :=
  [⟨"A", "XLM", "B", "XLM", 10, 0, "op-1"⟩, ⟨"A", "XLM", "C", "XLM", 10, 2000, "op-2"⟩,
    ⟨"D", "XLM", "E", "XLM", 10, 4000, "op-3"⟩]

/-- The node still has a hop, but has left the set of its wallet. -/
theorem partingHops_drift : ¬ ((Graph.init 3600 7).addHops partingHops).Bookkeeping := by
  intro hbook
  have hstands : ((Graph.init 3600 7).addHops partingHops).adjacency.stored
      ("A", "XLM") ("C", "XLM") ≠ [] := by decide +kernel
  have hnode := (hbook.walletNodes "A" ("A", "XLM")).mpr ⟨rfl, _, hstands⟩
  exact absurd hnode (by decide +kernel)

end Examples

end PathPaymentGraph
