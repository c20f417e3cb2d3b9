import LedgerLens.Graph.GraphSharding
import LedgerLens.LabelMatching

/-!
# Rebalancing the shards

`partition` and `rebalance` of the partitioner with their dictionaries: the shards of a new
partition take over names of the previous one, and the nodes whose shard differs are moved. The
modularity and the duration are left out.
-/
namespace GraphRebalancing

open GraphSharding LabelMatching RingMetrics StrongComponents

section

variable {α β γ : Type*} [DecidableEq α]

/-- `{k: f(v) for k, v in d.items()}`, where `f` may raise. -/
def mapValues (f : β → Option γ) (d : AList fun _ : α => β) : Option (AList fun _ : α => γ) :=
  d.entries.foldlM (fun out e => (f e.2).map fun v => out.insert e.1 v) ∅

theorem foldlM_insert {f : β → Option γ} {g : β → γ} {l : List (Sigma fun _ : α => β)}
    (hkeys : l.NodupKeys) (hf : ∀ e ∈ l, f e.2 = some (g e.2)) (out : AList fun _ : α => γ) :
    ∃ d, l.foldlM (fun out e => (f e.2).map fun v => out.insert e.1 v) out = some d ∧
      ∀ k, d.lookup k = ((l.dlookup k).map g).or (out.lookup k) := by
  induction l generalizing out with
  | nil => exact ⟨out, rfl, fun _ => rfl⟩
  | cons e l ih =>
    obtain ⟨he, hl⟩ := List.forall_mem_cons.mp hf
    obtain ⟨hnot, hkeys⟩ := List.nodupKeys_cons.mp hkeys
    obtain ⟨d, hd, hlookup⟩ := ih hkeys hl (out.insert e.1 (g e.2))
    refine ⟨d, ?_, fun k => ?_⟩
    · rw [List.foldlM_cons, he]
      exact hd
    · rw [hlookup]
      by_cases hk : k = e.1
      · subst hk
        rw [List.dlookup_eq_none.mpr hnot, List.dlookup_cons_eq, AList.lookup_insert]
        rfl
      · rw [List.dlookup_cons_ne _ _ hk, AList.lookup_insert_ne hk]

theorem exists_mapValues {f : β → Option γ} {g : β → γ} {d : AList fun _ : α => β}
    (hf : ∀ k v, d.lookup k = some v → f v = some (g v)) :
    ∃ d', mapValues f d = some d' ∧ ∀ k, d'.lookup k = (d.lookup k).map g := by
  obtain ⟨d', hd', hlookup⟩ := foldlM_insert d.nodupKeys
    (fun e he => hf e.1 e.2 (AList.mem_lookup_iff.mpr he)) (∅ : AList fun _ : α => γ)
  exact ⟨d', hd', fun k => (hlookup k).trans Option.or_none⟩

theorem eq_empty_of_lookup {d : AList fun _ : α => β}
    (h : ∀ k, d.lookup k = none) : d = ∅ := by
  refine AList.ext (List.eq_nil_iff_forall_not_mem.mpr fun e he => ?_)
  have hlookup := AList.mem_lookup_iff.mpr he
  rw [h e.1] at hlookup
  cases hlookup

end

abbrev ShardMap := AList fun _ : String => ℕ

structure ShardAssignment where
  nodeToShard : ShardMap
  boundaryNodes : Boundary
  shardCount : ℕ

structure RebalancePlan where
  assignment : ShardAssignment
  moves : AList fun _ : String => ℕ × ℕ
  dropped : Finset String
  ownershipConflicts : Finset String

/-- `node_to_shard[node] = shard_idx` for the members of each shard. -/
def assignShards (balanced : List (List String)) : ShardMap :=
  balanced.zipIdx.foldl
    (fun nodeToShard shard => shard.1.foldl (fun d node => d.insert node shard.2) nodeToShard) ∅

def partition (partitioner : GraphShardPartitioner) (detection : CommunityDetection)
    (edges : EdgeDict) : ShardAssignment :=
  let n := (nodesOf edges).length
  if n = 0 then ⟨∅, ∅, partitioner.shardCount⟩
  else
    let shardCount := if n < partitioner.shardCount then n else partitioner.shardCount
    let communities := detectCommunities detection partitioner.shardCount edges
    let nodeToShard := assignShards (balanceCommunities communities n shardCount)
    { nodeToShard := nodeToShard
      boundaryNodes := findBoundaryNodes (edges.map Prod.fst) nodeToShard.lookup
        partitioner.overlapHops
      shardCount := shardCount }

/-- One node of the new partition: its new shard and its old one, if that is still there. -/
def countOverlap (previous : ShardMap) (shardCount : ℕ) (overlap : AList fun _ : ℕ × ℕ => ℕ)
    (entry : Sigma fun _ : String => ℕ) : AList fun _ : ℕ × ℕ => ℕ :=
  match previous.lookup entry.1 with
  | some oldShard =>
    if oldShard < shardCount then
      overlap.insert (entry.2, oldShard) ((overlap.lookup (entry.2, oldShard)).getD 0 + 1)
    else overlap
  | none => overlap

def overlapOf (previous fresh : ShardAssignment) : AList fun _ : ℕ × ℕ => ℕ :=
  fresh.nodeToShard.entries.foldl (countOverlap previous.nodeToShard fresh.shardCount) ∅

/-- `key=lambda kv: (-kv[1], kv[0])`. -/
def OverlapLe (e e' : Sigma fun _ : ℕ × ℕ => ℕ) : Prop :=
  e'.2 < e.2 ∨ e.2 = e'.2 ∧ (e.1.1 < e'.1.1 ∨ e.1.1 = e'.1.1 ∧ e.1.2 ≤ e'.1.2)

instance : DecidableRel OverlapLe := fun _ _ => inferInstanceAs (Decidable (_ ∨ _ ∧ (_ ∨ _ ∧ _)))

/-- The pairs of a new and an old shard, the largest overlap first. -/
def claims (previous fresh : ShardAssignment) : List (ℕ × ℕ) :=
  ((overlapOf previous fresh).entries.insertionSort OverlapLe).map Sigma.fst

/-- The names of the new shards, absent where there are not enough. -/
def relabelOf (previous fresh : ShardAssignment) : Option (ℕ → Option ℕ) :=
  relabelling (List.range fresh.shardCount) (claims previous fresh)

/-- `{relabel[s] for s in shards}`. -/
def relabelShards (relabel : ℕ → Option ℕ) (shards : Finset ℕ) : Option (Finset ℕ) :=
  if ∀ s ∈ shards, relabel s ≠ none then some (shards.image fun s => (relabel s).getD s) else none

def addMove (previous : ShardMap) (moves : AList fun _ : String => ℕ × ℕ)
    (entry : Sigma fun _ : String => ℕ) : AList fun _ : String => ℕ × ℕ :=
  match previous.lookup entry.1 with
  | some source => if source ≠ entry.2 then moves.insert entry.1 (source, entry.2) else moves
  | none => moves

/-- The plan from the previous assignment to a new partition, absent where a name is missing. -/
def planTo (previous fresh : ShardAssignment) (inFlight : Option RebalancePlan) :
    Option RebalancePlan := do
  let relabel ← relabelOf previous fresh
  let nodeToShard ← mapValues relabel fresh.nodeToShard
  let boundaryNodes ← mapValues (relabelShards relabel) fresh.boundaryNodes
  let moves := nodeToShard.entries.foldl (addMove previous.nodeToShard) ∅
  return {
    assignment := ⟨nodeToShard, boundaryNodes, fresh.shardCount⟩
    moves := moves
    dropped := previous.nodeToShard.keys.toFinset \ nodeToShard.keys.toFinset
    ownershipConflicts :=
      match inFlight with
      | some plan => moves.keys.toFinset ∩ plan.moves.keys.toFinset
      | none => ∅ }

def rebalance (partitioner : GraphShardPartitioner) (detection : CommunityDetection)
    (previous : ShardAssignment) (edges : EdgeDict) (inFlight : Option RebalancePlan) :
    Option RebalancePlan :=
  planTo previous (partition partitioner detection edges) inFlight

section

variable {partitioner : GraphShardPartitioner} {detection : CommunityDetection} {edges : EdgeDict}
  {previous fresh : ShardAssignment} {inFlight : Option RebalancePlan} {node : String}

structure Places (edges : EdgeDict) (a : ShardAssignment) : Prop where
  mem_iff : ∀ node, node ∈ a.nodeToShard ↔ node ∈ nodesOf edges
  lt : ∀ node s, a.nodeToShard.lookup node = some s → s < a.shardCount
  boundary_lt : ∀ node shards, a.boundaryNodes.lookup node = some shards →
    ∀ s ∈ shards, s < a.shardCount

theorem lookup_foldl_insert (members : List String) (shard : ℕ) (d : ShardMap) (node : String) :
    (members.foldl (fun d node => d.insert node shard) d).lookup node =
      if node ∈ members then some shard else d.lookup node := by
  induction members generalizing d with
  | nil => simp
  | cons v members ih =>
    rw [List.foldl_cons, ih]
    by_cases hmem : node ∈ members
    · rw [if_pos hmem, if_pos (List.mem_cons_of_mem _ hmem)]
    · rw [if_neg hmem]
      by_cases hv : node = v
      · rw [hv, AList.lookup_insert, if_pos List.mem_cons_self]
      · rw [AList.lookup_insert_ne hv, if_neg (List.not_mem_cons_of_ne_of_not_mem hv hmem)]

theorem lookup_assignShards (balanced : List (List String)) :
    (assignShards balanced).lookup = nodeToShardOf balanced := by
  have hfold (l : List (List String × ℕ)) (d : ShardMap) (node : String) :
      (l.foldl (fun nodeToShard shard =>
        shard.1.foldl (fun d node => d.insert node shard.2) nodeToShard) d).lookup node =
      l.foldl (fun nodeToShard shard node =>
        if node ∈ shard.1 then some shard.2 else nodeToShard node) d.lookup node := by
    induction l generalizing d with
    | nil => rfl
    | cons shard l ih =>
      have hstep : (shard.1.foldl (fun d node => d.insert node shard.2) d).lookup =
          fun node => if node ∈ shard.1 then some shard.2 else d.lookup node :=
        funext (lookup_foldl_insert shard.1 shard.2 d)
      rw [List.foldl_cons, List.foldl_cons, ih, hstep]
  exact funext (hfold balanced.zipIdx ∅)

theorem partition_placement (partitioner : GraphShardPartitioner) (detection : CommunityDetection)
    (edges : EdgeDict) :
    (∀ node, (partition partitioner detection edges).nodeToShard.lookup node =
        (partitioner.partition detection edges).nodeToShard node) ∧
      (partition partitioner detection edges).shardCount =
        (partitioner.partition detection edges).shardCount := by
  rw [partition, GraphShardPartitioner.partition]
  by_cases hempty : (nodesOf edges).length = 0
  · simp only [if_pos hempty, dif_pos hempty]
    exact ⟨fun _ => rfl, trivial⟩
  · simp only [if_neg hempty, dif_neg hempty]
    exact ⟨congrFun (lookup_assignShards _), trivial⟩

theorem mem_nodesOf_of_placed {s : ℕ}
    (h : (partitioner.partition detection edges).nodeToShard node = some s) :
    node ∈ nodesOf edges := by
  unfold GraphShardPartitioner.partition at h
  by_cases hempty : (nodesOf edges).length = 0
  · simp only [dif_pos hempty] at h
    cases h
  · simp only [dif_neg hempty] at h
    have hpos : 0 < if (nodesOf edges).length < partitioner.shardCount then (nodesOf edges).length
        else partitioner.shardCount := by
      have := partitioner.shardCount_pos
      split_ifs <;> omega
    have hperm := (balanceCommunities_perm
      (detectCommunities detection partitioner.shardCount edges) (nodesOf edges).length hpos).trans
        (detectCommunities_perm detection partitioner.shardCount edges)
    obtain ⟨members, hmembers, hnode⟩ := (nodeToShardOf_eq_some
      (hperm.nodup_iff.mpr (nodesOf_nodup edges))).mp h
    exact hperm.mem_iff.mp (List.mem_flatten.mpr ⟨members, List.mem_of_getElem? hmembers, hnode⟩)

theorem lookup_partition_lt {s : ℕ}
    (h : (partition partitioner detection edges).nodeToShard.lookup node = some s) :
    s < (partition partitioner detection edges).shardCount := by
  obtain ⟨hlookup, hcount⟩ := partition_placement partitioner detection edges
  rw [hlookup] at h
  obtain ⟨s', hlt, hs'⟩ := (partitioner.partition detection edges).placed node
    (mem_nodesOf_of_placed h)
  rw [hcount, Option.some.inj (h.symm.trans hs')]
  exact hlt

theorem exists_of_mem_boundary {s : ℕ} {shards : Finset ℕ}
    (h : (partition partitioner detection edges).boundaryNodes.lookup node = some shards)
    (hs : s ∈ shards) :
    ∃ u, (partition partitioner detection edges).nodeToShard.lookup u = some s := by
  have hlookup := funext (partition_placement partitioner detection edges).1
  have hassigned := (partitioner.partition detection edges).assigned
  rw [← hlookup] at hassigned
  by_cases hempty : (nodesOf edges).length = 0
  · simp only [partition, if_pos hempty] at h
    cases h
  · have hboundary : (partition partitioner detection edges).boundaryNodes =
        findBoundaryNodes (edges.map Prod.fst)
          (fun u => (partition partitioner detection edges).nodeToShard.lookup u)
          partitioner.overlapHops := by
      simp only [partition, if_neg hempty]
    rw [hboundary] at h
    have hmem : s ∈ (findBoundaryNodes (edges.map Prod.fst)
        (fun u => (partition partitioner detection edges).nodeToShard.lookup u)
        partitioner.overlapHops).get node := by
      rw [Boundary.get, h]
      exact hs
    exact exists_of_within ((own_or_boundary_iff hassigned _).mp (.inr hmem))

theorem partition_places (partitioner : GraphShardPartitioner) (detection : CommunityDetection)
    (edges : EdgeDict) : Places edges (partition partitioner detection edges) where
  mem_iff node := by
    have hlookup := (partition_placement partitioner detection edges).1
    rw [← AList.lookup_isSome, Option.isSome_iff_exists, hlookup]
    constructor
    · rintro ⟨s, hs⟩
      exact mem_nodesOf_of_placed hs
    · intro hnode
      obtain ⟨s, -, hs⟩ := (partitioner.partition detection edges).placed node hnode
      exact ⟨s, hs⟩
  lt _ _ h := lookup_partition_lt h
  boundary_lt _ _ h s hs := by
    obtain ⟨u, hu⟩ := exists_of_mem_boundary h hs
    exact lookup_partition_lt hu

theorem mem_countOverlap (previous : ShardMap) (shardCount : ℕ)
    (overlap : AList fun _ : ℕ × ℕ => ℕ) (entry : Sigma fun _ : String => ℕ) (p : ℕ × ℕ) :
    p ∈ countOverlap previous shardCount overlap entry ↔ p ∈ overlap ∨
      entry.2 = p.1 ∧ previous.lookup entry.1 = some p.2 ∧ p.2 < shardCount := by
  rw [countOverlap]
  cases hold : previous.lookup entry.1 with
  | none => exact (or_iff_left fun h => nomatch h.2.1).symm
  | some oldShard =>
    dsimp only
    split_ifs with hlt
    · rw [AList.mem_insert, or_comm]
      refine or_congr_right ⟨?_, ?_⟩
      · rintro rfl
        exact ⟨rfl, rfl, hlt⟩
      · rintro ⟨hnew, holdShard, -⟩
        exact Prod.ext hnew.symm (Option.some.inj holdShard).symm
    · refine (or_iff_left ?_).symm
      rintro ⟨-, holdShard, hlt'⟩
      exact hlt ((Option.some.inj holdShard) ▸ hlt')

theorem mem_claims {p : ℕ × ℕ} : p ∈ claims previous fresh ↔ p.2 < fresh.shardCount ∧
    ∃ node, fresh.nodeToShard.lookup node = some p.1 ∧
      previous.nodeToShard.lookup node = some p.2 := by
  have hkeys : p ∈ claims previous fresh ↔ p ∈ overlapOf previous fresh := by
    rw [claims, List.mem_map]
    simp only [List.mem_insertionSort]
    exact List.mem_map.symm
  rw [hkeys, overlapOf, foldl_iff (M := fun overlap : AList fun _ : ℕ × ℕ => ℕ => p ∈ overlap)
    (fun overlap entry => mem_countOverlap previous.nodeToShard fresh.shardCount overlap entry p),
    or_iff_right (AList.notMem_empty p)]
  constructor
  · rintro ⟨entry, hentry, hnew, hold, hlt⟩
    exact ⟨hlt, entry.1, hnew ▸ AList.mem_lookup_iff.mpr hentry, hold⟩
  · rintro ⟨hlt, node, hnew, hold⟩
    exact ⟨⟨node, p.1⟩, AList.mem_lookup_iff.mp hnew, rfl, hold, hlt⟩

theorem lookup_addMove (previous : ShardMap) {moves : AList fun _ : String => ℕ × ℕ}
    {entry : Sigma fun _ : String => ℕ} (hfree : moves.lookup entry.1 = none) (node : String)
    (source target : ℕ) :
    (addMove previous moves entry).lookup node = some (source, target) ↔
      moves.lookup node = some (source, target) ∨
        entry = ⟨node, target⟩ ∧ previous.lookup node = some source ∧ source ≠ target := by
  obtain ⟨v, s⟩ := entry
  dsimp only at hfree
  by_cases hnode : node = v
  · subst hnode
    rw [hfree, or_iff_right (fun h => nomatch h)]
    rw [addMove]
    dsimp only
    cases hsource : previous.lookup node with
    | none => simp [hfree]
    | some source' =>
      dsimp only
      split_ifs with hne
      · rw [AList.lookup_insert]
        simp only [Option.some.injEq, Prod.mk.injEq, Sigma.mk.injEq, true_and, heq_eq_eq]
        constructor
        · rintro ⟨rfl, rfl⟩
          exact ⟨rfl, rfl, hne⟩
        · rintro ⟨rfl, rfl, -⟩
          exact ⟨rfl, rfl⟩
      · rw [hfree]
        simp only [Option.some.injEq, Sigma.mk.injEq, true_and, heq_eq_eq]
        refine iff_of_false (fun h => nomatch h) ?_
        rintro ⟨rfl, rfl, h⟩
        exact hne h
  · have hother : ¬ ((⟨v, s⟩ : Sigma fun _ : String => ℕ) = ⟨node, target⟩ ∧
        previous.lookup node = some source ∧ source ≠ target) := fun h =>
      hnode (congrArg Sigma.fst h.1).symm
    rw [or_iff_left hother]
    rw [addMove]
    dsimp only
    split
    · split_ifs
      · rw [AList.lookup_insert_ne hnode]
      · rfl
    · rfl

theorem lookup_foldl_addMove (previous : ShardMap) {l : List (Sigma fun _ : String => ℕ)}
    (hkeys : l.NodupKeys) (moves : AList fun _ : String => ℕ × ℕ)
    (hfree : ∀ e ∈ l, moves.lookup e.1 = none) (node : String) (source target : ℕ) :
    (l.foldl (addMove previous) moves).lookup node = some (source, target) ↔
      moves.lookup node = some (source, target) ∨
        (⟨node, target⟩ ∈ l ∧ previous.lookup node = some source ∧ source ≠ target) := by
  induction l generalizing moves with
  | nil => simp
  | cons e l ih =>
    obtain ⟨he, hl⟩ := List.forall_mem_cons.mp hfree
    obtain ⟨hnot, hkeys⟩ := List.nodupKeys_cons.mp hkeys
    rw [List.foldl_cons, ih hkeys, lookup_addMove previous he, List.mem_cons, or_assoc,
      or_and_right, eq_comm (a := e)]
    intro e' he'
    have hne : e'.1 ≠ e.1 := fun heq => hnot (heq ▸ List.mem_keys_of_mem he')
    rw [addMove]
    split
    · split_ifs
      · rw [AList.lookup_insert_ne hne, hl e' he']
      · exact hl e' he'
    · exact hl e' he'

theorem lookup_moves (previous nodeToShard : ShardMap) (node : String) (source target : ℕ) :
    (nodeToShard.entries.foldl (addMove previous) ∅).lookup node = some (source, target) ↔
      previous.lookup node = some source ∧ nodeToShard.lookup node = some target ∧
        source ≠ target := by
  rw [lookup_foldl_addMove previous nodeToShard.nodupKeys ∅ (fun _ _ => rfl),
    or_iff_right (fun h => nomatch h), ← AList.mem_lookup_iff, Option.mem_def, and_left_comm]

theorem relabelShards_eq {relabel : ℕ → Option ℕ} {σ : ℕ → ℕ} {shards : Finset ℕ}
    (h : ∀ s ∈ shards, relabel s = some (σ s)) :
    relabelShards relabel shards = some (shards.image σ) := by
  have hne : ∀ s ∈ shards, relabel s ≠ none := fun s hs => by
    rw [h s hs]
    exact Option.some_ne_none _
  rw [relabelShards, if_pos hne]
  refine congrArg some (Finset.image_congr fun s hs => ?_)
  rw [h s hs, Option.getD_some]

/-- The names are given, to distinct shards, and follow a renaming that the old shards follow. -/
theorem exists_relabelOf (previous fresh : ShardAssignment)
    (hlt : ∀ node s, fresh.nodeToShard.lookup node = some s → s < fresh.shardCount) :
    ∃ relabel σ, relabelOf previous fresh = some relabel ∧
      Set.BijOn σ {s | s < fresh.shardCount} {s | s < fresh.shardCount} ∧
      (∀ s < fresh.shardCount, relabel s = some (σ s)) ∧
      ∀ π, Set.BijOn π {s | s < fresh.shardCount} {s | s < fresh.shardCount} →
        (∀ node s old, fresh.nodeToShard.lookup node = some s →
          previous.nodeToShard.lookup node = some old → old = π s) →
        ∀ p ∈ claims previous fresh, σ p.1 = p.2 := by
  have hpairs : ∀ p ∈ claims previous fresh,
      p.1 ∈ List.range fresh.shardCount ∧ p.2 ∈ List.range fresh.shardCount := by
    intro p hp
    obtain ⟨hsecond, node, hfirst, -⟩ := mem_claims.mp hp
    exact ⟨List.mem_range.mpr (hlt node _ hfirst), List.mem_range.mpr hsecond⟩
  obtain ⟨relabel, hrelabel, ⟨σ, hσ, hsome⟩, hkeeps⟩ :=
    exists_relabelling List.nodup_range hpairs
  simp only [List.mem_range] at hσ hsome
  refine ⟨relabel, σ, hrelabel, hσ, hsome, fun π hπ hrenames p hp => ?_⟩
  have hfollows : ∀ p ∈ claims previous fresh, p.2 = π p.1 := fun q hq => by
    obtain ⟨-, node, hnew, hold⟩ := mem_claims.mp hq
    exact hrenames node q.1 q.2 hnew hold
  have hclaim := claimAll_renaming hpairs hfollows (by simpa only [List.mem_range] using hπ.injOn)
    p hp
  have hfirst := hsome p.1 (List.mem_range.mp (hpairs p hp).1)
  rw [hkeeps _ _ hclaim] at hfirst
  exact (Option.some.inj hfirst).symm

/-- Every node of the graph, and no other, has exactly one shard, of those that there are. -/
def EachInOneShard (edges : EdgeDict) (a : ShardAssignment) : Prop :=
  (∀ node, node ∈ a.nodeToShard ↔ node ∈ nodesOf edges) ∧
    ∀ node ∈ nodesOf edges, ∃! shard, a.nodeToShard.lookup node = some shard ∧ shard < a.shardCount

theorem Places.eachInOneShard {a : ShardAssignment} (h : Places edges a) :
    EachInOneShard edges a := by
  refine ⟨h.mem_iff, fun node hnode => ?_⟩
  have hmem := AList.lookup_isSome.mpr ((h.mem_iff node).mpr hnode)
  obtain ⟨s, hs⟩ := Option.isSome_iff_exists.mp hmem
  exact ⟨s, ⟨hs, h.lt node s hs⟩, fun s' h' => Option.some.inj (h'.1.symm.trans hs)⟩

structure Renames (previous fresh : ShardAssignment) (σ : ℕ → ℕ) (plan : RebalancePlan) :
    Prop where
  lookup : ∀ node, plan.assignment.nodeToShard.lookup node =
    (fresh.nodeToShard.lookup node).map σ
  boundary : ∀ node, plan.assignment.boundaryNodes.lookup node =
    (fresh.boundaryNodes.lookup node).map (Finset.image σ)
  shardCount : plan.assignment.shardCount = fresh.shardCount
  moves : ∀ node source target, plan.moves.lookup node = some (source, target) ↔
    previous.nodeToShard.lookup node = some source ∧
      plan.assignment.nodeToShard.lookup node = some target ∧ source ≠ target

theorem exists_planTo (hplaces : Places edges fresh) (inFlight : Option RebalancePlan)
    {relabel : ℕ → Option ℕ} {σ : ℕ → ℕ} (hrelabel : relabelOf previous fresh = some relabel)
    (hσ : ∀ s < fresh.shardCount, relabel s = some (σ s)) :
    ∃ plan, planTo previous fresh inFlight = some plan ∧ Renames previous fresh σ plan := by
  obtain ⟨nodeToShard, hnodes, hlookup⟩ := exists_mapValues
    fun node s (h : fresh.nodeToShard.lookup node = some s) => hσ s (hplaces.lt node s h)
  obtain ⟨boundaryNodes, hboundary, hlookup'⟩ := exists_mapValues
    fun node shards (h : fresh.boundaryNodes.lookup node = some shards) =>
      relabelShards_eq fun s hs => hσ s (hplaces.boundary_lt node shards h s hs)
  rw [planTo]
  rw [hrelabel]
  dsimp only [Option.bind_eq_bind, Option.bind_some]
  rw [hnodes]
  dsimp only [Option.bind_some]
  rw [hboundary]
  exact ⟨_, rfl, hlookup, hlookup', rfl, lookup_moves previous.nodeToShard nodeToShard⟩

theorem Renames.places {σ : ℕ → ℕ} {plan : RebalancePlan} (h : Renames previous fresh σ plan)
    (hplaces : Places edges fresh)
    (hσ : Set.MapsTo σ {s | s < fresh.shardCount} {s | s < fresh.shardCount}) :
    Places edges plan.assignment where
  mem_iff node := by
    rw [← hplaces.mem_iff, ← AList.lookup_isSome, ← AList.lookup_isSome, h.lookup,
      Option.isSome_map]
  lt node s hs := by
    rw [h.lookup] at hs
    obtain ⟨s', hs', rfl⟩ := Option.map_eq_some_iff.mp hs
    rw [h.shardCount]
    exact hσ (hplaces.lt node s' hs')
  boundary_lt node shards hshards s hs := by
    rw [h.boundary] at hshards
    obtain ⟨shards', hshards', rfl⟩ := Option.map_eq_some_iff.mp hshards
    obtain ⟨s', hs', rfl⟩ := Finset.mem_image.mp hs
    rw [h.shardCount]
    exact hσ (hplaces.boundary_lt node shards' hshards' s' hs')

end

/-- The partition, and the plan that `rebalance` always gives, put every node of the graph into
exactly one shard that there is. The plan renames the shards of the partition among themselves and
moves exactly the nodes whose shard is another one than before: none if and only if the old shards
are the new ones up to a renaming, and all those whose old shard is gone, to one that there was. -/
theorem rebalance_moves_changed (partitioner : GraphShardPartitioner)
    (detection : CommunityDetection) (edges : EdgeDict) (previous : ShardAssignment)
    (inFlight : Option RebalancePlan) :
    let fresh := partition partitioner detection edges
    EachInOneShard edges fresh ∧
    ∃ plan relabel σ, rebalance partitioner detection previous edges inFlight = some plan ∧
      EachInOneShard edges plan.assignment ∧
      plan.assignment.shardCount = fresh.shardCount ∧
      relabelOf previous fresh = some relabel ∧
      (∀ s < fresh.shardCount, relabel s = some (σ s)) ∧
      Set.BijOn σ {s | s < fresh.shardCount} {s | s < fresh.shardCount} ∧
      (∀ node, plan.assignment.nodeToShard.lookup node =
        (fresh.nodeToShard.lookup node).map σ) ∧
      (∀ node source target, plan.moves.lookup node = some (source, target) ↔
        previous.nodeToShard.lookup node = some source ∧
          plan.assignment.nodeToShard.lookup node = some target ∧ source ≠ target) ∧
      (plan.moves = ∅ ↔
        ∃ π, Set.BijOn π {s | s < fresh.shardCount} {s | s < fresh.shardCount} ∧
          ∀ node s old, fresh.nodeToShard.lookup node = some s →
            previous.nodeToShard.lookup node = some old → old = π s) ∧
      ∀ node ∈ nodesOf edges, ∀ source, previous.nodeToShard.lookup node = some source →
        fresh.shardCount ≤ source → ∃ target, plan.moves.lookup node = some (source, target) ∧
          target < fresh.shardCount ∧
          (source < previous.shardCount → target < previous.shardCount) := by
  intro fresh
  have hplaces : Places edges fresh := partition_places partitioner detection edges
  obtain ⟨relabel, σ, hrelabel, hσ, hsome, hfollows⟩ := exists_relabelOf previous fresh hplaces.lt
  obtain ⟨plan, hplan, hrenames⟩ := exists_planTo hplaces inFlight hrelabel hsome
  have hplaced := hrenames.places hplaces hσ.mapsTo
  refine ⟨hplaces.eachInOneShard, plan, relabel, σ, hplan, hplaced.eachInOneShard,
    hrenames.shardCount, hrelabel, hsome, hσ, hrenames.lookup, hrenames.moves, ⟨?_, ?_⟩, ?_⟩
  · intro hempty
    refine ⟨σ, hσ, fun node s old hs hold => ?_⟩
    by_contra hne
    have hmove := (hrenames.moves node old (σ s)).mpr ⟨hold, by rw [hrenames.lookup, hs]; rfl, hne⟩
    rw [hempty] at hmove
    cases hmove
  · rintro ⟨π, hπ, hold⟩
    have hnone : ∀ node, plan.moves.lookup node = none := by
      intro node
      rw [Option.eq_none_iff_forall_ne_some]
      rintro ⟨source, target⟩ hmove
      obtain ⟨hsource, htarget, hne⟩ := (hrenames.moves node source target).mp hmove
      rw [hrenames.lookup] at htarget
      obtain ⟨s, hs, rfl⟩ := Option.map_eq_some_iff.mp htarget
      have hlt : source < fresh.shardCount := by
        rw [hold node s source hs hsource]
        exact hπ.mapsTo (hplaces.lt node s hs)
      exact hne (hfollows π hπ hold (s, source) (mem_claims.mpr ⟨hlt, node, hs, hsource⟩)).symm
    exact eq_empty_of_lookup hnone
  · intro node hnode source hsource hgone
    obtain ⟨target, ⟨htarget, hlt⟩, -⟩ := hplaced.eachInOneShard.2 node hnode
    rw [hrenames.shardCount] at hlt
    have hne : source ≠ target := by omega
    exact ⟨target, (hrenames.moves node source target).mpr ⟨hsource, htarget, hne⟩, hlt,
      fun h => by omega⟩

end GraphRebalancing
