import LedgerLens.Graph.TradeGraph
import Mathlib.Data.List.AList

/-!
# Graph sharding

`GraphShardPartitioner` of `detection/graph_sharding.py`: accounts are spread over shards by
communities, and those near a shard are replicated into it. The modularity of an assignment is
left out, since no ring depends on it.
-/
namespace GraphSharding

open RingMetrics StrongComponents TradeGraph

def nodesOf (edges : EdgeDict) : List String :=
  (edges.foldl (fun index e => (index.add e.1.1).add e.1.2) NodeIndex.empty).accounts

/-- `louvain_communities` of the graph library, absent where it raises. A community is listed in
its iteration order. -/
structure CommunityDetection where
  louvain : EdgeDict → Option (List (List String))
  partition : ∀ edges communities, louvain edges = some communities →
    communities.flatten.Perm (nodesOf edges)

/-- `[nodes[i:i + size] for i in range(0, n, size)]`. -/
def chunks (nodes : List String) (size : ℕ) : List (List String) :=
  (List.range ((nodes.length + size - 1) / size)).map fun i => (nodes.drop (i * size)).take size

def detectCommunities (detection : CommunityDetection) (shardCount : ℕ) (edges : EdgeDict) :
    List (List String) :=
  let nodes := nodesOf edges
  let fallback := chunks nodes (max 1 (nodes.length / shardCount))
  match detection.louvain edges with
  | some raw => if raw = [] then fallback else raw
  | none => fallback

def mergeSmall (target : ℕ) (state : List (List String) × List String) (community : List String) :
    List (List String) × List String :=
  if state.2 = [] then (state.1, community)
  else if state.2.length + community.length ≤ target then (state.1, state.2 ++ community)
  else (state.1 ++ [state.2], community)

def mergeSmallCommunities (communities : List (List String)) (target : ℕ) : List (List String) :=
  let small := communities.filter fun c => decide (c.length < target)
  let large := communities.filter fun c => decide (target ≤ c.length)
  let (merged, current) := small.foldl (mergeSmall target) (large, [])
  if current = [] then merged else merged ++ [current]

/-- The parts of one community, with so many shards still free. -/
def splitMembers (target : ℕ) : ℕ → List String → List (List String)
  | 0, members => [members]
  | free + 1, members =>
    if 3 * target < 2 * members.length then
      members.take target :: splitMembers target free (members.drop target)
    else [members]

def splitLargeCommunities (communities : List (List String)) (target shardCount : ℕ) :
    List (List String) :=
  communities.foldl
    (fun result community =>
      result ++ splitMembers target (shardCount - 1 - result.length) community) []

/-- `min(shards, key=len).update(surplus)`. -/
def addToSmallest (shards : List (List String)) (surplus : List String) : List (List String) :=
  match (shards.map List.length).min? with
  | some size => shards.modify (shards.findIdx fun c => c.length == size) (· ++ surplus)
  | none => shards

def balanceCommunities (communities : List (List String)) (n shardCount : ℕ) :
    List (List String) :=
  let target := max 1 (n / shardCount)
  let merged := mergeSmallCommunities communities target
  let result := (splitLargeCommunities merged target shardCount).insertionSort
    fun c c' => c'.length ≤ c.length
  (result.drop shardCount).reverse.foldl addToSmallest (result.take shardCount)

/-- The dictionary from a node to the shards it is replicated into. -/
abbrev Boundary := AList fun _ : String => Finset ℕ

/-- `boundary.get(node, set())`. -/
def Boundary.get (boundary : Boundary) (node : String) : Finset ℕ :=
  (boundary.lookup node).getD ∅

/-- `boundary.setdefault(node, set()).update(shards)`. -/
def addShards (boundary : Boundary) (node : String) (shards : Finset ℕ) : Boundary :=
  boundary.insert node (boundary.get node ∪ shards)

def crossEdge (nodeToShard : String → Option ℕ) (boundary : Boundary)
    (edge : String × String) : Boundary :=
  match nodeToShard edge.1, nodeToShard edge.2 with
  | some su, some sv =>
    if su ≠ sv then addShards (addShards boundary edge.1 {sv}) edge.2 {su} else boundary
  | _, _ => boundary

/-- `graph.neighbors(node)`, where an edge leads both ways. -/
def neighbors (edges : List (String × String)) (node : String) : List String :=
  edges.flatMap fun e =>
    (if e.1 = node then [e.2] else []) ++ if e.2 = node then [e.1] else []

def spread (nodeToShard : String → Option ℕ) (extraShards : Finset ℕ) (newBoundary : Boundary)
    (neighbor : String) : Boundary :=
  let existing := addShards newBoundary neighbor extraShards
  match nodeToShard neighbor with
  | some ns => addShards existing neighbor (extraShards.filter (· ≠ ns))
  | none => existing

/-- One more hop. -/
def widen (edges : List (String × String)) (nodeToShard : String → Option ℕ)
    (boundary : Boundary) : Boundary :=
  let newBoundary := boundary.entries.foldl
    (fun new entry => (neighbors edges entry.1).foldl (spread nodeToShard entry.2) new) ∅
  newBoundary.entries.foldl (fun boundary entry => addShards boundary entry.1 entry.2) boundary

def findBoundaryNodes (edges : List (String × String)) (nodeToShard : String → Option ℕ)
    (overlapHops : ℕ) : Boundary :=
  if overlapHops = 0 then ∅
  else (widen edges nodeToShard)^[overlapHops - 1] (edges.foldl (crossEdge nodeToShard) ∅)

/-- The part of a `ShardAssignment` that the communities decide. -/
structure Placement (edges : EdgeDict) where
  nodeToShard : String → Option ℕ
  shardCount : ℕ
  shardCount_pos : 0 < shardCount
  placed : ∀ node ∈ nodesOf edges, ∃ shard < shardCount, nodeToShard node = some shard

/-- `node_to_shard[node] = shard_idx` for the members of each shard. -/
def nodeToShardOf (balanced : List (List String)) : String → Option ℕ :=
  balanced.zipIdx.foldl
    (fun nodeToShard shard node => if node ∈ shard.1 then some shard.2 else nodeToShard node)
    fun _ => none

structure GraphShardPartitioner where
  shardCount : ℕ
  overlapHops : ℕ
  shardCount_pos : 1 ≤ shardCount
  overlapHops_le : overlapHops ≤ 3

def GraphShardPartitioner.new (shardCount overlapHops : ℕ) :
    Except GraphError GraphShardPartitioner :=
  if hcount : shardCount < 1 then .error (.valueError "shard_count must be >= 1")
  else if hhops : overlapHops > 3 then .error (.valueError "overlap_hops must be 0-3")
  else .ok ⟨shardCount, overlapHops, not_lt.mp hcount, not_lt.mp hhops⟩

section

variable {edges : EdgeDict} {nodes : List String} {communities : List (List String)} {v : String}

theorem nodesOf_nodup (edges : EdgeDict) : (nodesOf edges).Nodup := NodeIndex.nodup _

theorem mem_nodesOf : v ∈ nodesOf edges ↔ ∃ e ∈ edges, v = e.1.1 ∨ v = e.1.2 := by
  have hfold (edges : EdgeDict) (index : NodeIndex) :
      v ∈ (edges.foldl (fun index e => (index.add e.1.1).add e.1.2) index).accounts ↔
        v ∈ index.accounts ∨ ∃ e ∈ edges, v = e.1.1 ∨ v = e.1.2 := by
    induction edges generalizing index with
    | nil => simp
    | cons e edges ih => simp [ih, NodeIndex.mem_add, or_assoc]
  exact (hfold edges .empty).trans (or_iff_right List.not_mem_nil)

theorem flatten_chunks {size : ℕ} (hsize : 0 < size) : (chunks nodes size).flatten = nodes := by
  have hprefix (k : ℕ) : ((List.range k).map fun i => (nodes.drop (i * size)).take size).flatten =
      nodes.take (k * size) := by
    induction k with
    | zero => simp
    | succ k ih =>
      rw [List.range_succ, List.map_append, List.flatten_append, ih, Nat.succ_mul, List.take_add]
      simp
  rw [chunks, hprefix, List.take_of_length_le]
  have hdiv := Nat.div_add_mod (nodes.length + size - 1) size
  have hmod := Nat.mod_lt (nodes.length + size - 1) hsize
  rw [Nat.mul_comm] at hdiv
  omega

theorem detectCommunities_perm (detection : CommunityDetection) (shardCount : ℕ)
    (edges : EdgeDict) :
    (detectCommunities detection shardCount edges).flatten.Perm (nodesOf edges) := by
  have hfallback := List.Perm.of_eq (@flatten_chunks (nodesOf edges) _
    (zero_lt_one.trans_le (le_max_left 1 ((nodesOf edges).length / shardCount))))
  unfold detectCommunities
  split
  · rename_i raw hraw
    split_ifs
    · exact hfallback
    · exact detection.partition edges raw hraw
  · exact hfallback

theorem flatten_mergeSmall (target : ℕ) (state : List (List String) × List String)
    (community : List String) :
    (mergeSmall target state community).1.flatten ++ (mergeSmall target state community).2 =
      state.1.flatten ++ state.2 ++ community := by
  unfold mergeSmall
  split_ifs with hempty
  · rw [hempty, List.append_nil]
  · rw [List.append_assoc]
  · rw [List.flatten_concat]

theorem mergeSmallCommunities_perm (communities : List (List String)) (target : ℕ) :
    (mergeSmallCommunities communities target).flatten.Perm communities.flatten := by
  have hfold (small : List (List String)) (state : List (List String) × List String) :
      (small.foldl (mergeSmall target) state).1.flatten ++
        (small.foldl (mergeSmall target) state).2 =
            state.1.flatten ++ state.2 ++ small.flatten := by
    induction small generalizing state with
    | nil => rw [List.flatten_nil, List.append_nil, List.foldl_nil]
    | cons community small ih =>
      rw [List.foldl_cons, ih, flatten_mergeSmall, List.flatten_cons, List.append_assoc]
  have hlast (state : List (List String) × List String) :
      (if state.2 = [] then state.1 else state.1 ++ [state.2]).flatten =
        state.1.flatten ++ state.2 := by
    split_ifs with hempty
    · rw [hempty, List.append_nil]
    · rw [List.flatten_concat]
  rw [mergeSmallCommunities, hlast, hfold, List.append_nil, ← List.flatten_append]
  refine List.Perm.flatten ?_
  have hcompl : (fun c : List String => decide (c.length < target)) =
      fun c => !decide (target ≤ c.length) := by
    funext c
    rw [← decide_not, decide_eq_decide, not_le]
  rw [hcompl]
  exact List.filter_append_perm _ _

theorem flatten_splitMembers (target free : ℕ) (members : List String) :
    (splitMembers target free members).flatten = members := by
  induction free generalizing members with
  | zero => rw [splitMembers, List.flatten_singleton]
  | succ free ih =>
    rw [splitMembers]
    split_ifs
    · rw [List.flatten_cons, ih, List.take_append_drop]
    · rw [List.flatten_singleton]

theorem flatten_splitLargeCommunities (communities : List (List String))
    (target shardCount : ℕ) :
    (splitLargeCommunities communities target shardCount).flatten = communities.flatten := by
  have hfold (result : List (List String)) : (communities.foldl (fun result community =>
      result ++ splitMembers target (shardCount - 1 - result.length) community) result).flatten =
        result.flatten ++ communities.flatten := by
    induction communities generalizing result with
    | nil => rw [List.foldl_nil, List.flatten_nil, List.append_nil]
    | cons community communities ih =>
      rw [List.foldl_cons, ih, List.flatten_append, flatten_splitMembers, List.flatten_cons,
        List.append_assoc]
  exact hfold []

theorem length_addToSmallest (shards : List (List String)) (surplus : List String) :
    (addToSmallest shards surplus).length = shards.length := by
  unfold addToSmallest
  split
  · exact List.length_modify _ _ _
  · rfl

theorem addToSmallest_perm {shards : List (List String)} (hne : shards ≠ [])
    (surplus : List String) :
    (addToSmallest shards surplus).flatten.Perm (shards.flatten ++ surplus) := by
  unfold addToSmallest
  split
  · rename_i size hmin
    have hlt : (shards.findIdx fun c => c.length == size) < shards.length := by
      obtain ⟨c, hc, hsize⟩ := List.mem_map.mp (List.min?_mem hmin)
      exact List.findIdx_lt_length_of_exists ⟨c, hc, beq_iff_eq.mpr hsize⟩
    obtain ⟨front, c, back, hshards, -, hmodify⟩ := List.exists_of_modify (· ++ surplus) hlt
    rw [hmodify]
    rw [congrArg List.flatten hshards]
    rw [List.flatten_append, List.flatten_append, List.flatten_cons, List.flatten_cons,
      List.append_assoc, List.append_assoc, List.append_assoc]
    exact (List.perm_append_comm.append_left c).append_left _
  · rename_i hnone
    exact absurd (List.map_eq_nil_iff.mp (List.min?_eq_none_iff.mp hnone)) hne

theorem foldl_addToSmallest {shards : List (List String)} (hne : shards ≠ [])
    (surplus : List (List String)) :
    (surplus.foldl addToSmallest shards).length = shards.length ∧
      (surplus.foldl addToSmallest shards).flatten.Perm (shards.flatten ++ surplus.flatten) := by
  induction surplus generalizing shards with
  | nil => simp
  | cons c surplus ih =>
    have hlength := length_addToSmallest shards c
    have hne' : addToSmallest shards c ≠ [] := by
      rwa [← List.length_pos_iff, hlength, List.length_pos_iff]
    obtain ⟨hlen, hperm⟩ := ih hne'
    rw [List.foldl_cons, List.flatten_cons, ← List.append_assoc]
    exact ⟨hlen.trans hlength, hperm.trans ((addToSmallest_perm hne c).append_right _)⟩

theorem balanceCommunities_perm (communities : List (List String)) (n : ℕ) {shardCount : ℕ}
    (hpos : 0 < shardCount) :
    (balanceCommunities communities n shardCount).flatten.Perm communities.flatten := by
  have hsorted (result : List (List String)) :
      ((result.drop shardCount).reverse.foldl addToSmallest (result.take shardCount)).flatten.Perm
        result.flatten := by
    by_cases hempty : result = []
    · simp [hempty]
    · have hne : result.take shardCount ≠ [] := by
        rw [Ne, List.take_eq_nil_iff]
        exact not_or.mpr ⟨hpos.ne', hempty⟩
      refine (foldl_addToSmallest hne _).2.trans ?_
      refine ((List.reverse_perm _).flatten.append_left _).trans (List.Perm.of_eq ?_)
      rw [← List.flatten_append, List.take_append_drop]
  refine (hsorted _).trans ((List.perm_insertionSort _ _).flatten.trans ?_)
  rw [flatten_splitLargeCommunities]
  exact mergeSmallCommunities_perm communities _

theorem length_balanceCommunities (communities : List (List String)) (n : ℕ) {shardCount : ℕ}
    (hpos : 0 < shardCount) :
    (balanceCommunities communities n shardCount).length ≤ shardCount := by
  have hsorted (result : List (List String)) :
      ((result.drop shardCount).reverse.foldl addToSmallest (result.take shardCount)).length ≤
        shardCount := by
    by_cases hempty : result = []
    · simp [hempty]
    · have hne : result.take shardCount ≠ [] := by
        rw [Ne, List.take_eq_nil_iff]
        exact not_or.mpr ⟨hpos.ne', hempty⟩
      rw [(foldl_addToSmallest hne _).1]
      exact List.length_take_le _ _
  exact hsorted _

/-- An account of pairwise disjoint shards is assigned to the one it is in. -/
theorem nodeToShardOf_eq_some {balanced : List (List String)} (hnodup : balanced.flatten.Nodup)
    {shard : ℕ} : nodeToShardOf balanced v = some shard ↔
      ∃ members, balanced[shard]? = some members ∧ v ∈ members := by
  have hfold (l : List (List String)) (first : ℕ) (nodeToShard : String → Option ℕ)
      (hl : l.flatten.Nodup) : (l.zipIdx first).foldl (fun nodeToShard shard node =>
        if node ∈ shard.1 then some shard.2 else nodeToShard node) nodeToShard v = some shard ↔
        (∃ i members, l[i]? = some members ∧ v ∈ members ∧ shard = first + i) ∨
          v ∉ l.flatten ∧ nodeToShard v = some shard := by
    induction l generalizing first nodeToShard with
    | nil => simp
    | cons members l ih =>
      rw [List.flatten_cons, List.nodup_append] at hl
      rw [List.zipIdx_cons, List.foldl_cons, ih _ _ hl.2.1]
      constructor
      · rintro (⟨i, c, hc, hv, rfl⟩ | ⟨hv, hshard⟩)
        · exact .inl ⟨i + 1, c, hc, hv, by omega⟩
        · split_ifs at hshard with hmem
          · obtain rfl := Option.some.inj hshard
            exact .inl ⟨0, members, rfl, hmem, rfl⟩
          · rw [List.flatten_cons, List.mem_append]
            exact .inr ⟨not_or.mpr ⟨hmem, hv⟩, hshard⟩
      · rintro (⟨i, c, hc, hv, rfl⟩ | ⟨hv, hshard⟩)
        · cases i with
          | zero =>
            obtain rfl := Option.some.inj hc
            refine .inr ⟨fun hl' => hl.2.2 v hv v hl' rfl, ?_⟩
            rw [if_pos hv, Nat.add_zero]
          | succ i => exact .inl ⟨i, c, hc, hv, by omega⟩
        · rw [List.flatten_cons, List.mem_append, not_or] at hv
          refine .inr ⟨hv.2, ?_⟩
          rw [if_neg hv.1, hshard]
  rw [nodeToShardOf, hfold balanced 0 _ hnodup]
  simp

end

/-- Every node in exactly one of the shards. -/
def GraphShardPartitioner.partition (partitioner : GraphShardPartitioner)
    (detection : CommunityDetection) (edges : EdgeDict) : Placement edges :=
  let n := (nodesOf edges).length
  if hnodes : n = 0 then
    { nodeToShard := fun _ => none
      shardCount := partitioner.shardCount
      shardCount_pos := partitioner.shardCount_pos
      placed := by
        intro node hnode
        rw [List.length_eq_zero_iff.mp hnodes] at hnode
        exact absurd hnode List.not_mem_nil }
  else
    let shardCount := if n < partitioner.shardCount then n else partitioner.shardCount
    have hpos : 0 < shardCount := by
      have := partitioner.shardCount_pos
      grind
    let communities := detectCommunities detection partitioner.shardCount edges
    let balanced := balanceCommunities communities n shardCount
    { nodeToShard := nodeToShardOf balanced
      shardCount := shardCount
      shardCount_pos := hpos
      placed := by
        intro node hnode
        have hperm := (balanceCommunities_perm communities n hpos).trans
          (detectCommunities_perm detection partitioner.shardCount edges)
        obtain ⟨members, hmembers, hnode⟩ := List.mem_flatten.mp (hperm.mem_iff.mpr hnode)
        obtain ⟨shard, hshard⟩ := List.mem_iff_getElem?.mp hmembers
        refine ⟨shard, ?_, (nodeToShardOf_eq_some
          (hperm.nodup_iff.mpr (nodesOf_nodup edges))).mpr ⟨members, hshard, hnode⟩⟩
        exact (List.getElem?_eq_some_iff.mp hshard).1.trans_le
          (length_balanceCommunities communities n hpos) }

section

variable {keys : List (String × String)} {nodeToShard : String → Option ℕ}
  {boundary : Boundary} {node u v : String} {s : ℕ}

theorem mem_get_iff :
    s ∈ boundary.get v ↔ ∃ entry ∈ boundary.entries, v = entry.1 ∧ s ∈ entry.2 := by
  constructor
  · intro hs
    cases hv : boundary.lookup v with
    | none => simp [Boundary.get, hv] at hs
    | some shards =>
      rw [Boundary.get, hv, Option.getD_some] at hs
      exact ⟨⟨v, shards⟩, AList.mem_lookup_iff.mp hv, rfl, hs⟩
  · rintro ⟨⟨_, shards⟩, hentry, rfl, hs⟩
    have hlookup : boundary.lookup v = some shards := AList.mem_lookup_iff.mpr hentry
    rwa [Boundary.get, hlookup]

theorem mem_get_addShards {shards : Finset ℕ} :
    s ∈ (addShards boundary node shards).get v ↔ s ∈ boundary.get v ∨ v = node ∧ s ∈ shards := by
  rw [addShards, Boundary.get]
  by_cases hv : v = node
  · rw [hv, AList.lookup_insert, Option.getD_some, Finset.mem_union, and_iff_right rfl]
  · rw [AList.lookup_insert_ne hv]
    exact (or_iff_left fun h => hv h.1).symm

theorem foldl_iff {α β : Type*} {f : β → α → β} {M : β → Prop} {P : α → Prop}
    (hf : ∀ b a, M (f b a) ↔ M b ∨ P a) (l : List α) (b : β) :
    M (l.foldl f b) ↔ M b ∨ ∃ a ∈ l, P a := by
  induction l generalizing b with
  | nil => simp
  | cons a l ih => simp only [List.foldl_cons, ih, hf, List.mem_cons, exists_eq_or_imp, or_assoc]

theorem foldl_empty_iff {α : Type*} {f : Boundary → α → Boundary} {P : α → Prop}
    (hf : ∀ b a, s ∈ (f b a).get v ↔ s ∈ b.get v ∨ P a) (l : List α) :
    s ∈ (l.foldl f ∅).get v ↔ ∃ a ∈ l, P a := by
  rw [foldl_iff (M := fun boundary : Boundary => s ∈ boundary.get v) hf]
  exact or_iff_right (Finset.notMem_empty s)

/-- The edges as the undirected graph has them. -/
def Joined (keys : List (String × String)) (u v : String) : Prop := (u, v) ∈ keys

theorem mem_neighbors : v ∈ neighbors keys u ↔ Joined keys u v ∨ Joined keys v u := by
  unfold neighbors Joined
  rw [List.mem_flatMap]
  constructor
  · rintro ⟨⟨a, b⟩, he, hv⟩
    rw [List.mem_append] at hv
    rcases hv with hv | hv
    · split_ifs at hv with ha
      · exact .inl (ha ▸ List.mem_singleton.mp hv ▸ he)
      · exact absurd hv List.not_mem_nil
    · split_ifs at hv with hb
      · exact .inr (hb ▸ List.mem_singleton.mp hv ▸ he)
      · exact absurd hv List.not_mem_nil
  · rintro (he | he)
    · exact ⟨_, he, List.mem_append_left _ (by rw [if_pos rfl]; exact List.mem_singleton_self v)⟩
    · exact ⟨_, he, List.mem_append_right _ (by rw [if_pos rfl]; exact List.mem_singleton_self v)⟩

theorem mem_crossEdge {edge : String × String} :
    s ∈ (crossEdge nodeToShard boundary edge).get v ↔
      s ∈ boundary.get v ∨ ∃ u, (edge = (u, v) ∨ edge = (v, u)) ∧ nodeToShard u = some s ∧
        ∃ shard, nodeToShard v = some shard ∧ shard ≠ s := by
  obtain ⟨a, b⟩ := edge
  simp only [crossEdge, Prod.mk.injEq]
  cases ha : nodeToShard a with
  | none =>
    refine (or_iff_left ?_).symm
    rintro ⟨u, ⟨rfl, rfl⟩ | ⟨rfl, rfl⟩, hu, shard, hv, -⟩
    · rw [ha] at hu
      cases hu
    · rw [ha] at hv
      cases hv
  | some su =>
    cases hb : nodeToShard b with
    | none =>
      refine (or_iff_left ?_).symm
      rintro ⟨u, ⟨rfl, rfl⟩ | ⟨rfl, rfl⟩, hu, shard, hv, -⟩
      · rw [hb] at hv
        cases hv
      · rw [hb] at hu
        cases hu
    | some sv =>
      have hends : (∃ u, (a = u ∧ b = v ∨ a = v ∧ b = u) ∧ nodeToShard u = some s ∧
          ∃ shard, nodeToShard v = some shard ∧ shard ≠ s) ↔
            (v = a ∧ s = sv ∨ v = b ∧ s = su) ∧ su ≠ sv := by
        constructor
        · rintro ⟨u, ⟨rfl, rfl⟩ | ⟨rfl, rfl⟩, hu, shard, hv, hne⟩
          · rw [ha] at hu
            rw [hb] at hv
            cases hu
            cases hv
            exact ⟨.inr ⟨rfl, rfl⟩, Ne.symm hne⟩
          · rw [hb] at hu
            rw [ha] at hv
            cases hu
            cases hv
            exact ⟨.inl ⟨rfl, rfl⟩, hne⟩
        · rintro ⟨⟨rfl, rfl⟩ | ⟨rfl, rfl⟩, hne⟩
          · exact ⟨b, .inr ⟨rfl, rfl⟩, hb, su, ha, hne⟩
          · exact ⟨a, .inl ⟨rfl, rfl⟩, ha, sv, hb, Ne.symm hne⟩
      rw [hends]
      dsimp only
      by_cases hne : su = sv
      · rw [if_neg (not_not.mpr hne)]
        exact (or_iff_left fun h => h.2 hne).symm
      · rw [if_pos hne, mem_get_addShards, mem_get_addShards, or_assoc, and_iff_left hne,
          Finset.mem_singleton, Finset.mem_singleton]

theorem mem_spread {extraShards : Finset ℕ} {neighbor : String} :
    s ∈ (spread nodeToShard extraShards boundary neighbor).get v ↔
      s ∈ boundary.get v ∨ v = neighbor ∧ s ∈ extraShards := by
  unfold spread
  cases nodeToShard neighbor with
  | none => exact mem_get_addShards
  | some ns =>
    simp only [mem_get_addShards, Finset.mem_filter]
    exact or_iff_left_of_imp fun h => .inr ⟨h.1, h.2.1⟩

theorem mem_widen : s ∈ (widen keys nodeToShard boundary).get v ↔
    s ∈ boundary.get v ∨ ∃ u, (Joined keys u v ∨ Joined keys v u) ∧ s ∈ boundary.get u := by
  have hspread (shards : Finset ℕ) (new : Boundary) (neighbor : String) :
      s ∈ (spread nodeToShard shards new neighbor).get v ↔
        s ∈ new.get v ∨ v = neighbor ∧ s ∈ shards := mem_spread
  have hadd (new : Boundary) (entry : Sigma fun _ : String => Finset ℕ) :
      s ∈ (addShards new entry.1 entry.2).get v ↔ s ∈ new.get v ∨ v = entry.1 ∧ s ∈ entry.2 :=
    mem_get_addShards
  have hentry (new : Boundary) (entry : Sigma fun _ : String => Finset ℕ) :
      s ∈ ((neighbors keys entry.1).foldl (spread nodeToShard entry.2) new).get v ↔
        s ∈ new.get v ∨ (Joined keys entry.1 v ∨ Joined keys v entry.1) ∧ s ∈ entry.2 := by
    rw [foldl_iff (M := fun new : Boundary => s ∈ new.get v) (hspread entry.2)]
    refine or_congr_right ?_
    rw [← mem_neighbors]
    exact ⟨fun ⟨_, hn, hv, hs⟩ => ⟨hv ▸ hn, hs⟩, fun ⟨hn, hs⟩ => ⟨v, hn, rfl, hs⟩⟩
  rw [widen, foldl_iff (M := fun new : Boundary => s ∈ new.get v) hadd,
    ← mem_get_iff, foldl_empty_iff hentry]
  refine or_congr_right ⟨?_, ?_⟩
  · rintro ⟨entry, hmem, hedge, hs⟩
    exact ⟨entry.1, hedge, mem_get_iff.mpr ⟨entry, hmem, rfl, hs⟩⟩
  · rintro ⟨u, hedge, hs⟩
    obtain ⟨entry, hmem, rfl, hshard⟩ := mem_get_iff.mp hs
    exact ⟨entry, hmem, hedge, hshard⟩

def Assigned (keys : List (String × String)) (nodeToShard : String → Option ℕ) : Prop :=
  ∀ u v, Joined keys u v ∨ Joined keys v u → ∃ shard, nodeToShard u = some shard

theorem Placement.assigned {edges : EdgeDict} (placement : Placement edges) :
    Assigned (edges.map Prod.fst) placement.nodeToShard := by
  intro u v huv
  have hu : u ∈ nodesOf edges := by
    rcases huv with huv | hvu
    · obtain ⟨e, he, heq⟩ := List.mem_map.mp huv
      exact mem_nodesOf.mpr ⟨e, he, .inl (congrArg Prod.fst heq).symm⟩
    · obtain ⟨e, he, heq⟩ := List.mem_map.mp hvu
      exact mem_nodesOf.mpr ⟨e, he, .inr (congrArg Prod.snd heq).symm⟩
  obtain ⟨shard, -, hshard⟩ := placement.placed u hu
  exact ⟨shard, hshard⟩

/-- A shard's accounts and those on its boundary are the ones so many hops away from it. -/
theorem own_or_boundary_iff (hassigned : Assigned keys nodeToShard) (hops : ℕ) :
    nodeToShard v = some s ∨ s ∈ (findBoundaryNodes keys nodeToShard hops).get v ↔
      Within (Joined keys) (fun u => nodeToShard u = some s) hops v := by
  have hstart (v : String) : s ∈ (keys.foldl (crossEdge nodeToShard) ∅).get v ↔
      ∃ u, (Joined keys u v ∨ Joined keys v u) ∧ nodeToShard u = some s ∧
        ∃ shard, nodeToShard v = some shard ∧ shard ≠ s := by
    rw [foldl_empty_iff fun _ _ => mem_crossEdge]
    constructor
    · rintro ⟨_, hedge, u, rfl | rfl, hs⟩
      · exact ⟨u, .inl hedge, hs⟩
      · exact ⟨u, .inr hedge, hs⟩
    · rintro ⟨u, hedge | hedge, hs⟩
      · exact ⟨_, hedge, u, .inl rfl, hs⟩
      · exact ⟨_, hedge, u, .inr rfl, hs⟩
  cases hops with
  | zero => exact or_iff_left (Finset.notMem_empty s)
  | succ hops =>
    rw [findBoundaryNodes, if_neg (Nat.succ_ne_zero _), Nat.add_sub_cancel]
    induction hops generalizing v with
    | zero =>
      rw [Function.iterate_zero_apply, hstart]
      refine or_congr_right' fun hown => ⟨?_, ?_⟩
      · rintro ⟨u, hedge, hu, -⟩
        exact ⟨u, hu, hedge⟩
      · rintro ⟨u, hu, hedge⟩
        obtain ⟨shard, hshard⟩ := hassigned v u hedge.symm
        exact ⟨u, hedge, hu, shard, hshard, fun h => hown (h ▸ hshard)⟩
    | succ hops ih =>
      rw [Function.iterate_succ_apply', mem_widen, ← or_assoc]
      refine Iff.trans (or_congr_left ih) ?_
      refine or_congr_right' fun hfar => exists_congr fun u => ?_
      refine and_comm.trans (and_congr_left fun hedge => ?_)
      refine (or_iff_right fun hu => hfar ?_).symm.trans ih
      exact within_of_adjacent (S := fun u => nodeToShard u = some s) hu hedge hops

end

end GraphSharding
