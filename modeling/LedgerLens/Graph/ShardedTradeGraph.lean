import LedgerLens.Graph.GraphSharding
import LedgerLens.Graph.SubsumptionMerge
import Mathlib.Data.Finset.Option
import Mathlib.Data.List.MinMax

/-!
# Sharded trade graphs

`ShardedTradeGraph` of `detection/graph_engine.py`: each shard searches the edges near its accounts,
failed shards are moved onto the survivors, and the rings are merged by inclusion of their account
sets. Which workers die is an input of a run, since the pool and the operating system decide it.
-/
namespace ShardedTradeGraph

open GraphSharding RingMetrics StrongComponents SubsumptionMerge TradeGraph

structure ShardEdges (graph : Graph) where
  edges : EdgeDict
  keys_nodup : (edges.map Prod.fst).Nodup
  subset : ∀ e ∈ edges, e ∈ graph.edges

section

variable {graph : Graph}

def ShardEdges.toGraph (shard : ShardEdges graph) : Graph where
  index := graph.index
  edges := shard.edges
  keys_nodup := shard.keys_nodup
  indexed e he := graph.indexed e (shard.subset e he)

def ShardEdges.empty (graph : Graph) : ShardEdges graph :=
  ⟨[], keys_nodup_nil, fun _ h => absurd h List.not_mem_nil⟩

/-- `edge_data[key] = data`. -/
def setItem (edges : EdgeDict) (item : (String × String) × EdgeData) : EdgeDict :=
  match edges with
  | [] => [item]
  | e :: rest => if e.1 = item.1 then item :: rest else e :: setItem rest item

theorem eq_of_key_eq {e e' : (String × String) × EdgeData} (he : e ∈ graph.edges)
    (he' : e' ∈ graph.edges) (hkey : e.1 = e'.1) : e = e' :=
  List.inj_on_of_nodup_map graph.keys_nodup he he' hkey

theorem mem_setItem {edges : EdgeDict} {item e : (String × String) × EdgeData}
    (hedges : ∀ e ∈ edges, e ∈ graph.edges) (hitem : item ∈ graph.edges) :
    e ∈ setItem edges item ↔ e ∈ edges ∨ e = item := by
  induction edges with
  | nil => simp [setItem]
  | cons e' edges ih =>
    obtain ⟨he', hedges⟩ := List.forall_mem_cons.mp hedges
    rw [setItem]
    split_ifs with hkey
    · rw [eq_of_key_eq he' hitem hkey]
      exact (or_iff_left_of_imp fun h => h ▸ List.mem_cons_self).symm
    · rw [List.mem_cons, List.mem_cons, ih hedges, or_assoc]

theorem setItem_keys_nodup {edges : EdgeDict} (hnodup : (edges.map Prod.fst).Nodup)
    (item : (String × String) × EdgeData) : ((setItem edges item).map Prod.fst).Nodup := by
  have hkeys (edges : EdgeDict) (k : String × String) (hk : k ≠ item.1)
      (hnot : k ∉ edges.map Prod.fst) : k ∉ (setItem edges item).map Prod.fst := by
    induction edges with
    | nil => simpa [setItem] using hk
    | cons e edges ih =>
      rw [List.map_cons, List.mem_cons, not_or] at hnot
      rw [setItem]
      split_ifs <;> simp_all
  induction edges with
  | nil => simp [setItem]
  | cons e edges ih =>
    rw [List.map_cons, List.nodup_cons] at hnodup
    rw [setItem]
    split_ifs with hkey
    · rw [List.map_cons, List.nodup_cons, ← hkey]
      exact hnodup
    · rw [List.map_cons, List.nodup_cons]
      exact ⟨hkeys edges e.1 hkey hnodup.1, ih hnodup.2⟩

def ShardEdges.set (shard : ShardEdges graph) (item : (String × String) × EdgeData)
    (hitem : item ∈ graph.edges) : ShardEdges graph where
  edges := setItem shard.edges item
  keys_nodup := setItem_keys_nodup shard.keys_nodup item
  subset e he := by
    rcases (mem_setItem shard.subset hitem).mp he with he | rfl
    · exact shard.subset e he
    · exact hitem

/-- `shard.update(other)`. -/
def ShardEdges.update (shard other : ShardEdges graph) : ShardEdges graph :=
  other.edges.attach.foldl (fun shard item => shard.set item.1 (other.subset _ item.2)) shard

theorem ShardEdges.mem_update {shard other : ShardEdges graph}
    {e : (String × String) × EdgeData} :
    e ∈ (shard.update other).edges ↔ e ∈ shard.edges ∨ e ∈ other.edges := by
  rw [update, foldl_iff (M := fun shard : ShardEdges graph => e ∈ shard.edges)
    (P := fun item => e = item.1) fun shard item =>
      mem_setItem shard.subset (other.subset _ item.2)]
  simp

end

/-- A ring and its `shard_ids`. -/
structure ShardRing where
  ring : Ring
  shardIds : List ℕ
  deriving DecidableEq

def runShardFindRings (limits : Limits) (sparse : SparseMatrices) {graph : Graph}
    (shard : ShardEdges graph) (query : RingQuery) : Except GraphError (List Ring) :=
  (Engine.findWashRings limits sparse ⟨shard.toGraph, false, none⟩ query).map Prod.fst

def targetShards (nodeToShard : String → Option ℕ) (boundary : Boundary)
    (key : String × String) : Finset ℕ :=
  (nodeToShard key.1).toFinset ∪ (nodeToShard key.2).toFinset ∪ boundary.get key.1 ∪
    boundary.get key.2

def shardEdgeData (graph : Graph) (placement : Placement graph.edges) (overlapHops s : ℕ) :
    ShardEdges graph :=
  let boundary := findBoundaryNodes (graph.edges.map Prod.fst) placement.nodeToShard overlapHops
  { edges := graph.edges.filter fun e =>
      decide (s ∈ targetShards placement.nodeToShard boundary e.1)
    keys_nodup := graph.keys_nodup.sublist (List.filter_sublist.map _)
    subset := fun _ he => (List.mem_filter.mp he).1 }

/-- What a run has once the workers have answered, and while failed shards are moved. -/
structure ShardState (graph : Graph) where
  results : List (ℕ × List Ring)
  edgeData : ℕ → ShardEdges graph
  nodeToShard : String → Option ℕ

/-- One failed shard goes to `min(results, key=lambda s: len(shard_edge_data[s]))`. -/
def rebalanceShard (limits : Limits) (sparse : SparseMatrices) (query : RingQuery) {graph : Graph}
    (state : ShardState graph) (shardId : ℕ) : Except GraphError (ShardState graph) :=
  match (state.results.map Prod.fst).argmin fun s => (state.edgeData s).edges.length with
  | none => .error (.valueError "min() arg is an empty sequence")
  | some target => do
    let moved := (state.edgeData target).update (state.edgeData shardId)
    let rings ← runShardFindRings limits sparse moved query
    return {
      results := state.results.map fun r => if r.1 = target then (target, rings) else r
      edgeData := Function.update (Function.update state.edgeData target moved) shardId
        (.empty graph)
      nodeToShard := fun node =>
        if state.nodeToShard node = some shardId then some target else state.nodeToShard node }

def rebalanceFailedShards (limits : Limits) (sparse : SparseMatrices) (query : RingQuery)
    {graph : Graph} (failed : List ℕ) (state : ShardState graph) :
    Except GraphError (ShardState graph) :=
  if state.results = [] then .error (.shardFailure failed.length)
  else failed.foldlM (rebalanceShard limits sparse query) state

/-- The rings of a worker, unless it dies or raises. -/
def workerResult (limits : Limits) (sparse : SparseMatrices) (query : RingQuery) {graph : Graph}
    (dies : ℕ → Bool) (edgeData : ℕ → ShardEdges graph) (s : ℕ) : Option (List Ring) :=
  if dies s then none else (runShardFindRings limits sparse (edgeData s) query).toOption

/-- `ring["shard_ids"]` of two rings with the same accounts. -/
def joinShards (existing arriving : ShardRing) : ShardRing :=
  ⟨existing.ring, existing.shardIds ++ arriving.shardIds⟩

def accountSet (r : ShardRing) : Finset String := r.ring.accounts.toFinset

def arrivals (results : List (ℕ × List Ring)) : List ShardRing :=
  (results.insertionSort fun r r' => r.1 ≤ r'.1).flatMap fun r => r.2.map fun ring => ⟨ring, [r.1]⟩

def mergeResults (results : List (ℕ × List Ring)) : List ShardRing :=
  (mergeAll accountSet joinShards (arrivals results) []).insertionSort
    fun r r' => ByVolume r.ring r'.ring

structure Outcome where
  rings : List ShardRing
  failedShards : List ℕ
  nodeToShard : String → Option ℕ

/-- `find_wash_rings` after the partition. -/
def ringsUnder (limits : Limits) (sparse : SparseMatrices) (dies : ℕ → Bool) (graph : Graph)
    (placement : Placement graph.edges) (overlapHops : ℕ) (query : RingQuery) :
    Except GraphError Outcome := do
  let edgeData := shardEdgeData graph placement overlapHops
  let shards := List.range placement.shardCount
  let worker := workerResult limits sparse query dies edgeData
  let failed := shards.filter fun s => worker s = none
  let state : ShardState graph :=
    { results := shards.filterMap fun s => (worker s).map fun rings => (s, rings)
      edgeData := edgeData
      nodeToShard := placement.nodeToShard }
  let state ← if failed = [] then pure state
    else rebalanceFailedShards limits sparse query failed state
  return ⟨mergeResults state.results, failed, state.nodeToShard⟩

/-- A `ShardedTradeGraph` object. The number of workers has no part in the results. -/
structure ShardedEngine where
  graph : Graph
  shardCount : ℕ
  overlapHops : ℕ
  failedShards : List ℕ
  shardAssignment : Option (String → Option ℕ)
  ringsCache : Option (RingQuery × List ShardRing)

def ShardedEngine.findWashRings (limits : Limits) (sparse : SparseMatrices)
    (detection : CommunityDetection) (dies : ℕ → Bool) (engine : ShardedEngine)
    (query : RingQuery) : Except GraphError (List ShardRing × ShardedEngine) := do
  match engine.ringsCache with
  | some (key, rings) =>
    if key = query then return (rings, engine)
  | none => pure ()
  let partitioner ← GraphShardPartitioner.new engine.shardCount engine.overlapHops
  let placement := partitioner.partition detection engine.graph.edges
  let outcome ← ringsUnder limits sparse dies engine.graph placement partitioner.overlapHops query
  return (outcome.rings,
    { engine with
      failedShards := outcome.failedShards
      shardAssignment := some outcome.nodeToShard
      ringsCache := some (query, outcome.rings) })

section

variable {limits : Limits} {sparse : SparseMatrices} {query : RingQuery} {graph : Graph}
  {shard : ShardEdges graph} {rings : List Ring} {ring : Ring} {C : Finset String}

structure Searchable (limits : Limits) (graph : Graph) (query : RingQuery) : Prop where
  sizes : checkSizes query = .ok ()
  fits : graph.index.size < limits.mmapThreshold ∨ graph.index.size ≤ limits.maxGraphNodes

theorem runShardFindRings_eq (shard : ShardEdges graph) :
    runShardFindRings limits sparse shard query =
      checkSizes query >>= fun _ => searchRings limits sparse shard.toGraph query := by
  rw [runShardFindRings, Engine.findWashRings]
  cases checkSizes query with
  | error e => rfl
  | ok _ =>
    dsimp only [Bind.bind, Except.bind]
    cases searchRings limits sparse shard.toGraph query <;> rfl

theorem runShardFindRings_ok_iff (shard : ShardEdges graph) :
    (∃ rings, runShardFindRings limits sparse shard query = .ok rings) ↔
      Searchable limits graph query := by
  rw [runShardFindRings_eq]
  cases hsizes : checkSizes query with
  | error e => exact iff_of_false (fun ⟨_, h⟩ => nomatch h) fun h => nomatch hsizes ▸ h.sizes
  | ok _ =>
    refine Iff.trans (@searchRings_ok_iff limits sparse shard.toGraph query) ?_
    exact ⟨fun h => ⟨hsizes, h⟩, Searchable.fits⟩

def ShardScanned (limits : Limits) (shard : ShardEdges graph) (u v : String) : Prop :=
  Scanned limits graph.index.size shard.edges u v

theorem mem_runShardFindRings (h : runShardFindRings limits sparse shard query = .ok rings) :
    ring ∈ rings ↔ ∃ C, IsComponent (ShardScanned limits shard) C ∧
      sccRing query C.sort shard.edges = some ring := by
  rw [runShardFindRings_eq] at h
  cases hsizes : checkSizes query with
  | error e => rw [hsizes] at h; cases h
  | ok _ =>
    rw [hsizes] at h
    exact mem_searchRings h

theorem accounts_of_sccRing {edges : EdgeDict} (h : sccRing query C.sort edges = some ring) :
    ring.accounts.toFinset = C := by
  obtain ⟨rfl, -, -⟩ := sccRing_eq_some.mp h
  exact Finset.sort_toFinset _ _

/-- The edges of the graph, whatever their volume. -/
abbrev Traded (graph : Graph) : String → String → Prop := Joined (graph.edges.map Prod.fst)

theorem ShardScanned.traded {u v : String} (h : ShardScanned limits shard u v) :
    Traded graph u v := by
  obtain ⟨data, hmem, -⟩ := h
  exact List.mem_map_of_mem (f := Prod.fst) (shard.subset _ hmem)

structure Reports (limits : Limits) (query : RingQuery) (shard : ShardEdges graph)
    (C : Finset String) : Prop where
  component : IsComponent (ShardScanned limits shard) C
  volume : query.minCycleVolume ≤ (ringOf query C.sort shard.edges).cycleVolume

theorem find?_runShardFindRings (h : runShardFindRings limits sparse shard query = .ok rings)
    (hsize : query.minRingSize ≤ C.card) {s : ℕ} {x : ShardRing} :
    (rings.map fun ring => ShardRing.mk ring [s]).find? (fun x => decide (accountSet x = C)) =
        some x ↔
      Reports limits query shard C ∧ x = ⟨ringOf query C.sort shard.edges, [s]⟩ := by
  have hmem {ring : Ring} (hring : ring ∈ rings) (hset : ring.accounts.toFinset = C) :
      Reports limits query shard C ∧ ring = ringOf query C.sort shard.edges := by
    obtain ⟨D, hD, hscc⟩ := (mem_runShardFindRings h).mp hring
    obtain rfl := (accounts_of_sccRing hscc).symm.trans hset
    obtain ⟨rfl, -, hvolume⟩ := sccRing_eq_some.mp hscc
    exact ⟨⟨hD, hvolume⟩, rfl⟩
  constructor
  · intro hfind
    have hset := List.find?_some hfind
    obtain ⟨ring, hring, rfl⟩ := List.mem_map.mp (List.mem_of_find?_eq_some hfind)
    obtain ⟨hreports, hring⟩ := hmem hring (of_decide_eq_true hset)
    exact ⟨hreports, congrArg₂ ShardRing.mk hring rfl⟩
  · rintro ⟨hreports, rfl⟩
    have hring : ringOf query C.sort shard.edges ∈ rings := by
      refine (mem_runShardFindRings h).mpr ⟨C, hreports.component, sccRing_eq_some.mpr ⟨rfl, ?_,
        hreports.volume⟩⟩
      exact hsize.trans (Finset.length_sort _).ge
    cases hfind : (rings.map fun ring => ShardRing.mk ring [s]).find?
        fun x => decide (accountSet x = C) with
    | none =>
      have hnone := List.find?_eq_none.mp hfind _ (List.mem_map_of_mem hring)
      exact absurd (decide_eq_true (Finset.sort_toFinset C _)) hnone
    | some x =>
      have hset := List.find?_some hfind
      obtain ⟨ring, hring, rfl⟩ := List.mem_map.mp (List.mem_of_find?_eq_some hfind)
      rw [(hmem hring (of_decide_eq_true hset)).2]

end

section

variable {limits : Limits} {sparse : SparseMatrices} {query : RingQuery} {graph : Graph}
  {placement : Placement graph.edges} {hops s : ℕ} {C : Finset String} {u v : String}

/-- Accounts within the replication depth of a shard's own. -/
abbrev Near (placement : Placement graph.edges) (hops s : ℕ) : String → Prop :=
  Within (Traded graph) (fun u => placement.nodeToShard u = some s) hops

theorem mem_targetShards {nodeToShard : String → Option ℕ} {boundary : Boundary}
    {key : String × String} : s ∈ targetShards nodeToShard boundary key ↔
      (nodeToShard key.1 = some s ∨ s ∈ boundary.get key.1) ∨
        nodeToShard key.2 = some s ∨ s ∈ boundary.get key.2 := by
  simp only [targetShards, Finset.mem_union, Option.mem_toFinset, Option.mem_def]
  tauto

theorem mem_shardEdgeData {e : (String × String) × EdgeData} :
    e ∈ (shardEdgeData graph placement hops s).edges ↔
      e ∈ graph.edges ∧ (Near placement hops s e.1.1 ∨ Near placement hops s e.1.2) := by
  have hassigned := placement.assigned
  rw [shardEdgeData, List.mem_filter, decide_eq_true_eq, mem_targetShards,
    own_or_boundary_iff hassigned, own_or_boundary_iff hassigned]

/-- Every edge inside the component is near the shard. -/
def Covered (placement : Placement graph.edges) (hops s : ℕ) (C : Finset String) : Prop :=
  ∀ u ∈ C, ∀ v ∈ C, Traded graph u v → Near placement hops s u ∨ Near placement hops s v

theorem exists_component {shard : ShardEdges graph} {D : Finset String}
    (hD : IsComponent (ShardScanned limits shard) D) :
    ∃ C, IsComponent (Traded graph) C ∧ D ⊆ C := by
  have hnodes (a b : String) (hab : Traded graph a b) :
      a ∈ graph.index.accounts.toFinset ∧ b ∈ graph.index.accounts.toFinset := by
    obtain ⟨e, he, heq⟩ := List.mem_map.mp hab
    have hindexed := graph.indexed e he
    rw [heq] at hindexed
    exact ⟨List.mem_toFinset.mpr hindexed.1, List.mem_toFinset.mpr hindexed.2⟩
  obtain ⟨u, hu⟩ := hD.nonempty
  obtain ⟨v, hv⟩ := hD.touched u hu
  obtain ⟨C, hC, huC⟩ := IsComponent.exists_of_touched hnodes
    ⟨v, hv.imp ShardScanned.traded ShardScanned.traded⟩
  exact ⟨C, hC, hD.subset_of_mem (fun _ _ => ShardScanned.traded) hC hu huC⟩

end

section

variable {limits : Limits} {sparse : SparseMatrices} {query : RingQuery} {graph : Graph}
  {placement : Placement graph.edges} {hops : ℕ} {C : Finset String}

def shardResults (count : ℕ) (rings : ℕ → List Ring) : List (ℕ × List Ring) :=
  (List.range count).map fun s => (s, rings s)

theorem ringsUnder_alive (hsearch : Searchable limits graph query) :
    ∃ rings : ℕ → List Ring,
      (∀ s, runShardFindRings limits sparse (shardEdgeData graph placement hops s) query =
        .ok (rings s)) ∧
      ringsUnder limits sparse (fun _ => false) graph placement hops query =
        .ok ⟨mergeResults (shardResults placement.shardCount rings), [],
          placement.nodeToShard⟩ := by
  have hrun (s : ℕ) : ∃ rings, runShardFindRings limits sparse
      (shardEdgeData graph placement hops s) query = .ok rings :=
    (runShardFindRings_ok_iff _).mpr hsearch
  choose rings hrings using hrun
  have hworker (s : ℕ) : workerResult limits sparse query (fun _ => false)
      (shardEdgeData graph placement hops) s = some (rings s) := by
    rw [workerResult, if_neg Bool.false_ne_true, hrings, Except.toOption]
  refine ⟨rings, hrings, ?_⟩
  have hfailed : (List.range placement.shardCount).filter
      (fun s => decide (some (rings s) = none)) = [] :=
    List.filter_eq_nil_iff.mpr fun s _ => by simp
  have hresults : (List.range placement.shardCount).filterMap
      (fun s => (some (rings s)).map fun rings => (s, rings)) =
        shardResults placement.shardCount rings :=
    congrFun List.filterMap_eq_map (List.range placement.shardCount)
  simp only [ringsUnder, hworker]
  rw [hfailed, hresults]
  exact if_pos rfl

theorem ringsUnder_error (hsearch : ¬ Searchable limits graph query) (dies : ℕ → Bool) :
    ringsUnder limits sparse dies graph placement hops query =
      .error (.shardFailure placement.shardCount) := by
  have hworker (s : ℕ) : workerResult limits sparse query dies
      (shardEdgeData graph placement hops) s = none := by
    rw [workerResult]
    split_ifs
    · rfl
    · cases hrun : runShardFindRings limits sparse (shardEdgeData graph placement hops s) query with
      | error e => rfl
      | ok rings => exact absurd ((runShardFindRings_ok_iff _).mp ⟨rings, hrun⟩) hsearch
  simp [ringsUnder, hworker, rebalanceFailedShards, placement.shardCount_pos.ne']

theorem mem_arrivals {results : List (ℕ × List Ring)} {x : ShardRing} :
    x ∈ arrivals results ↔ ∃ r ∈ results, x.ring ∈ r.2 ∧ x.shardIds = [r.1] := by
  obtain ⟨ring, ids⟩ := x
  simp only [arrivals, List.mem_flatMap, List.mem_insertionSort, List.mem_map, ShardRing.mk.injEq]
  refine exists_congr fun r => and_congr_right fun _ => ?_
  exact ⟨fun ⟨_, hmem, hring, hids⟩ => ⟨hring ▸ hmem, hids.symm⟩,
    fun ⟨hmem, hids⟩ => ⟨ring, hmem, rfl, hids.symm⟩⟩

theorem mem_mergeResults {results : List (ℕ × List Ring)} {x : ShardRing} :
    x ∈ mergeResults results ↔ x ∈ mergeAll accountSet joinShards (arrivals results) [] :=
  List.mem_insertionSort _

theorem keepsSet_joinShards : KeepsSet accountSet joinShards := fun _ _ => rfl

theorem ring_of_mem_mergeResults {results : List (ℕ × List Ring)} {x : ShardRing}
    (hx : x ∈ mergeResults results) : ∃ r ∈ results, x.ring ∈ r.2 := by
  have harrivals (y : ShardRing) (hy : y ∈ arrivals results) : ∃ r ∈ results, y.ring ∈ r.2 := by
    obtain ⟨r, hr, hring, -⟩ := mem_arrivals.mp hy
    exact ⟨r, hr, hring⟩
  have hmerged : ∀ y ∈ mergeAll accountSet joinShards (arrivals results) [],
      ∃ r ∈ results, y.ring ∈ r.2 :=
    forall_mem_mergeAll (fun _ _ h => h) harrivals fun _ h => absurd h List.not_mem_nil
  exact hmerged x (mem_mergeResults.mp hx)

theorem findSome?_range_iff {α : Type*} {f : ℕ → Option α} {n : ℕ} {a : α} :
    (List.range n).findSome? f = some a ↔ ∃ s < n, f s = some a ∧ ∀ s' < s, f s' = none := by
  induction n with
  | zero => simp
  | succ n ih =>
    have hnone : (List.range n).findSome? f = none ↔ ∀ s < n, f s = none := by simp
    rw [List.range_succ, List.findSome?_append, Option.or_eq_some_iff, ih, hnone,
      List.findSome?_singleton]
    constructor
    · rintro (⟨s, hs, hfirst⟩ | ⟨hbefore, hlast⟩)
      · exact ⟨s, hs.trans n.lt_succ_self, hfirst⟩
      · exact ⟨n, n.lt_succ_self, hlast, hbefore⟩
    · rintro ⟨s, hs, hfirst⟩
      rcases (Nat.lt_succ_iff_lt_or_eq.mp hs) with hs | rfl
      · exact .inl ⟨s, hs, hfirst⟩
      · exact .inr hfirst.symm

theorem find?_arrivals {rings : ℕ → List Ring}
    (hrings : ∀ s, runShardFindRings limits sparse (shardEdgeData graph placement hops s) query =
      .ok (rings s)) (hsize : query.minRingSize ≤ C.card) {count : ℕ} {x : ShardRing} :
    (arrivals (shardResults count rings)).find? (fun x => decide (accountSet x = C)) = some x ↔
      ∃ s < count, (Reports limits query (shardEdgeData graph placement hops s) C ∧
        x = ⟨ringOf query C.sort (shardEdgeData graph placement hops s).edges, [s]⟩) ∧
        ∀ s' < s, ¬ Reports limits query (shardEdgeData graph placement hops s') C := by
  have hsorted : (shardResults count rings).insertionSort (fun r r' => r.1 ≤ r'.1) =
      shardResults count rings := by
    refine List.Pairwise.insertionSort_eq ?_
    rw [shardResults, List.pairwise_map]
    exact List.pairwise_le_range
  rw [arrivals, hsorted, shardResults, List.flatMap_map, List.find?_flatMap, findSome?_range_iff]
  refine exists_congr fun s => and_congr_right fun _ => ?_
  rw [find?_runShardFindRings (hrings s) hsize]
  refine and_congr_right fun _ => forall_congr' fun s' => forall_congr' fun _ => ?_
  rw [Option.eq_none_iff_forall_ne_some]
  simp only [ne_eq, find?_runShardFindRings (hrings s') hsize]
  exact ⟨fun h hreports => h _ ⟨hreports, rfl⟩, fun h x hx => h hx.1⟩

structure Visible (placement : Placement graph.edges) (hops : ℕ) (query : RingQuery)
    (C : Finset String) : Prop where
  component : IsComponent (Traded graph) C
  large : query.minRingSize ≤ C.card
  covered : ∃ s < placement.shardCount, Covered placement hops s C

/-- Visible components are reported with their accounts and metrics, and what is reported is in
one component. -/
structure Complete (placement : Placement graph.edges) (hops : ℕ) (query : RingQuery)
    (outcome : Except GraphError Outcome) : Prop where
  reported : ∀ C, Visible placement hops query C →
    ∃ result, outcome = .ok result ∧ ∃ r ∈ result.rings, r.ring = ringOf query C.sort graph.edges
  sound : ∀ result, outcome = .ok result → ∀ r ∈ result.rings,
    ∃ C, IsComponent (Traded graph) C ∧ r.ring.accounts.toFinset ⊆ C

structure FirstReport (limits : Limits) (placement : Placement graph.edges) (hops : ℕ)
    (query : RingQuery) (C : Finset String) (s : ℕ) : Prop where
  reports : Reports limits query (shardEdgeData graph placement hops s) C
  exact : ringOf query C.sort (shardEdgeData graph placement hops s).edges =
    ringOf query C.sort graph.edges
  first : ∀ s' < s, ¬ Reports limits query (shardEdgeData graph placement hops s') C

/-- The lowest shard that reports the component has its metrics. -/
def FirstExact (limits : Limits) (placement : Placement graph.edges) (hops : ℕ)
    (query : RingQuery) (C : Finset String) : Prop :=
  ∃ s < placement.shardCount, FirstReport limits placement hops query C s

theorem sound_of_found {results : List (ℕ × List Ring)}
    (hfound : ∀ r ∈ results, ∃ shard : ShardEdges graph,
      runShardFindRings limits sparse shard query = .ok r.2) {x : ShardRing}
    (hx : x ∈ mergeResults results) :
    ∃ C, IsComponent (Traded graph) C ∧ x.ring.accounts.toFinset ⊆ C := by
  obtain ⟨r, hr, hring⟩ := ring_of_mem_mergeResults hx
  obtain ⟨shard, hrun⟩ := hfound r hr
  obtain ⟨D, hD, hscc⟩ := (mem_runShardFindRings hrun).mp hring
  obtain ⟨C, hC, hsub⟩ := exists_component hD
  exact ⟨C, hC, (accounts_of_sccRing hscc).symm ▸ hsub⟩

/-- In a run without failures a large component is reported as it is exactly where the first shard
to report it has all that its metrics need. -/
theorem reported_iff {rings : ℕ → List Ring}
    (hrings : ∀ s, runShardFindRings limits sparse (shardEdgeData graph placement hops s) query =
      .ok (rings s)) (hC : IsComponent (Traded graph) C) (hsize : query.minRingSize ≤ C.card) :
    (∃ r ∈ mergeResults (shardResults placement.shardCount rings),
      r.ring = ringOf query C.sort graph.edges) ↔ FirstExact limits placement hops query C := by
  have hmax : Maximal accountSet (arrivals (shardResults placement.shardCount rings)) C := by
    intro x hx hlt
    obtain ⟨r, hr, hring, -⟩ := mem_arrivals.mp hx
    obtain ⟨s, -, rfl⟩ := List.mem_map.mp hr
    obtain ⟨D, hD, hscc⟩ := (mem_runShardFindRings (hrings s)).mp hring
    obtain ⟨C', hC', hsub⟩ := exists_component hD
    rw [accountSet, accounts_of_sccRing hscc] at hlt
    obtain ⟨u, hu⟩ := hC.nonempty
    have heq := hC.ext hC' hu (hsub (hlt.subset hu))
    exact hlt.not_subset (heq ▸ hsub)
  have hset {r : ShardRing} (hr : r.ring = ringOf query C.sort graph.edges) : accountSet r = C := by
    rw [accountSet, hr]
    exact Finset.sort_toFinset _ _
  have hmerged : (∃ r ∈ mergeResults (shardResults placement.shardCount rings),
      r.ring = ringOf query C.sort graph.edges) ↔
      ∃ r ∈ mergeAll accountSet joinShards (arrivals (shardResults placement.shardCount rings)) [],
        accountSet r = C ∧ r.ring = ringOf query C.sort graph.edges := by
    refine exists_congr fun r => and_congr mem_mergeResults ?_
    exact ⟨fun hr => ⟨hset hr, hr⟩, And.right⟩
  rw [hmerged, exists_mem_mergeAll_iff keepsSet_joinShards (fun _ _ => Iff.rfl) hmax]
  simp only [find?_arrivals hrings hsize]
  constructor
  · rintro ⟨_, ⟨s, hs, ⟨hreports, rfl⟩, hfirst⟩, hexact⟩
    exact ⟨s, hs, hreports, hexact, hfirst⟩
  · rintro ⟨s, hs, hreports, hexact, hfirst⟩
    exact ⟨_, ⟨s, hs, ⟨hreports, rfl⟩, hfirst⟩, hexact⟩

/-- The run is complete up to the replication depth exactly where, if a component is visible, the
workers do not raise and the lowest shard to report each visible component has its metrics. -/
theorem complete_iff_first_exact (limits : Limits) (sparse : SparseMatrices) (graph : Graph)
    (placement : Placement graph.edges) (hops : ℕ) (query : RingQuery) :
    Complete placement hops query
        (ringsUnder limits sparse (fun _ => false) graph placement hops query) ↔
      ∀ C, Visible placement hops query C →
        Searchable limits graph query ∧ FirstExact limits placement hops query C := by
  by_cases hsearch : Searchable limits graph query
  · obtain ⟨rings, hrings, hrun⟩ :=
      @ringsUnder_alive limits sparse query graph placement hops hsearch
    have hfound (r : ℕ × List Ring) (hr : r ∈ shardResults placement.shardCount rings) :
        ∃ shard : ShardEdges graph, runShardFindRings limits sparse shard query = .ok r.2 := by
      obtain ⟨s, -, rfl⟩ := List.mem_map.mp hr
      exact ⟨_, hrings s⟩
    rw [hrun]
    constructor
    · intro h C hC
      obtain ⟨_, hok, hreported⟩ := h.reported C hC
      obtain rfl := Except.ok.inj hok
      exact ⟨hsearch, (reported_iff hrings hC.component hC.large).mp hreported⟩
    · intro h
      refine ⟨fun C hC => ⟨_, rfl, ?_⟩, ?_⟩
      · exact (reported_iff hrings hC.component hC.large).mpr (h C hC).2
      · intro _ hok r hr
        obtain rfl := Except.ok.inj hok
        exact sound_of_found hfound hr
  · rw [ringsUnder_error hsearch]
    constructor
    · intro h C hC
      obtain ⟨_, hok, -⟩ := h.reported C hC
      cases hok
    · exact fun h => ⟨fun C hC => absurd (h C hC).1 hsearch, fun _ hok => nomatch hok⟩

end

def hubKeys : List (String × String) :=
  [("a", "b"), ("b", "a"), ("b", "c"), ("c", "b"), ("b", "d"), ("d", "b"), ("c", "d")]

def hubGraph : Graph :=
  hubKeys.foldl (fun graph key => graph.addEdge key.1 key.2 1 none) Graph.empty

def oneCommunity : CommunityDetection where
  louvain edges := some [nodesOf edges]
  partition edges communities h := by
    cases h
    rw [List.flatten_singleton]

/-- Each account is a shard of its own. -/
def hubPlacement : Placement hubGraph.edges :=
  (GraphShardPartitioner.mk 8 1 (by decide) (by decide)).partition oneCommunity hubGraph.edges

def hubQuery : RingQuery := ⟨3, 10, 0⟩

def hubAccounts : Finset String := {"a", "b", "c", "d"}

def hubEdges (keys : List (String × String)) : EdgeDict := keys.map fun key => (key, ⟨1, 1, []⟩)

theorem hubGraph_edges : hubGraph.edges = hubEdges hubKeys := by decide +kernel

theorem hub_component {Edge : String → String → Prop} (hsub : ∀ u v, Edge u v → (u, v) ∈ hubKeys)
    (hspokes : ∀ key ∈ hubKeys.take 6, Edge key.1 key.2) : IsComponent Edge hubAccounts := by
  have hmem : ∀ key ∈ hubKeys, key.2 ∈ hubAccounts := by decide
  have htakes : ∀ u ∈ hubAccounts, u ≠ "b" →
      (u, "b") ∈ hubKeys.take 6 ∧ ("b", u) ∈ hubKeys.take 6 := by decide
  refine @IsComponent.of_hub _ _ hubAccounts "b" "a" (by decide) (by decide) (by decide) ?_ ?_
  · intro u hu hne
    obtain ⟨hto, hfrom⟩ := htakes u hu hne
    exact ⟨hspokes _ hto, hspokes _ hfrom⟩
  · exact fun u v huv => hmem _ (hsub u v huv)

theorem hub_volume (keys : List (String × String)) :
    (ringOf hubQuery hubAccounts.sort (hubEdges keys)).totalVolume =
      totalVolume (inside ["a", "b", "c", "d"] (hubEdges keys)) := by
  have hinside : inside hubAccounts.sort (hubEdges keys) =
      inside ["a", "b", "c", "d"] (hubEdges keys) := by
    refine List.filter_congr fun e _ => ?_
    rw [decide_eq_decide, Finset.mem_sort, Finset.mem_sort]
    simp [hubAccounts]
  rw [ringOf, hinside]

/-- The first shard finds all of the accounts without the edge between the last two, and its ring is
kept. -/
theorem hub_not_complete : ¬Complete hubPlacement 1 hubQuery
    (ringsUnder ⟨50000, 1000000, true⟩ .inOrder (fun _ => false) hubGraph hubPlacement 1
      hubQuery) := by
  have hfirst : (shardEdgeData hubGraph hubPlacement 1 0).edges = hubEdges (hubKeys.take 6) := by
    decide +kernel
  have hsearch : Searchable ⟨50000, 1000000, true⟩ hubGraph hubQuery :=
    ⟨by decide, .inl (by decide +kernel)⟩
  have hcomponent : IsComponent (Traded hubGraph) hubAccounts := by
    have hkeys : hubGraph.edges.map Prod.fst = hubKeys := by decide +kernel
    refine hub_component (fun u v huv => hkeys ▸ huv) fun key hkey => ?_
    exact (hkeys.symm ▸ List.mem_of_mem_take hkey : key ∈ hubGraph.edges.map Prod.fst)
  have hreports : Reports ⟨50000, 1000000, true⟩ hubQuery
      (shardEdgeData hubGraph hubPlacement 1 0) hubAccounts := by
    refine ⟨hub_component (fun u v huv => ?_) fun key hkey => ?_, ?_⟩
    · obtain ⟨data, hmem, -⟩ := huv
      rw [hfirst] at hmem
      obtain ⟨key, hkey, heq⟩ := List.mem_map.mp hmem
      obtain rfl : key = (u, v) := congrArg Prod.fst heq
      exact List.mem_of_mem_take hkey
    · refine ⟨⟨1, 1, []⟩, ?_, fun _ => one_ne_zero⟩
      rw [hfirst]
      exact List.mem_map_of_mem hkey
    · refine ringOf_cycleVolume_nonneg fun e he => ?_
      rw [hfirst] at he
      obtain ⟨key, -, rfl⟩ := List.mem_map.mp he
      exact zero_le_one
  have hvisible : Visible hubPlacement 1 hubQuery hubAccounts := by
    refine ⟨hcomponent, by decide, 2, by decide +kernel, fun u _ v _ huv => ?_⟩
    have hall : (shardEdgeData hubGraph hubPlacement 1 2).edges = hubGraph.edges := by
      decide +kernel
    obtain ⟨e, he, heq⟩ := List.mem_map.mp huv
    have hnear := (mem_shardEdgeData.mp (hall.symm ▸ he)).2
    rwa [heq] at hnear
  intro h
  obtain ⟨rings, hrings, hrun⟩ :=
    @ringsUnder_alive _ .inOrder hubQuery hubGraph hubPlacement 1 hsearch
  obtain ⟨result, hok, hreported⟩ := h.reported hubAccounts hvisible
  rw [hrun] at hok
  obtain rfl := Except.ok.inj hok
  obtain ⟨s, -, -, hexact, hnone⟩ := (reported_iff hrings hcomponent hvisible.large).mp hreported
  rcases Nat.eq_zero_or_pos s with rfl | hpos
  · have hvolume := congrArg Ring.totalVolume hexact
    rw [hfirst, hubGraph_edges, hub_volume, hub_volume] at hvolume
    exact absurd hvolume (by decide +kernel)
  · exact hnone 0 hpos hreports

end ShardedTradeGraph
