import LedgerLens.Graph.RingMetrics

/-!
# Trade graphs

`NodeIndex`, `SparseTradeGraph` and `TradeGraph` of `detection/graph_engine.py`. The rings of a
graph are those of the components of the edges that its adjacency keeps: all of them, or from
`GRAPH_MMAP_THRESHOLD` accounts on those of non-zero volume.
-/
namespace TradeGraph

open RingMetrics StrongComponents

/-- `_int_to_str`; the position of an account is its index. -/
structure NodeIndex where
  accounts : List String
  nodup : accounts.Nodup

def NodeIndex.empty : NodeIndex := ⟨[], List.nodup_nil⟩

def NodeIndex.add (index : NodeIndex) (node : String) : NodeIndex :=
  if h : node ∈ index.accounts then index
  else ⟨index.accounts ++ [node], List.nodup_append.mpr ⟨index.nodup, List.nodup_singleton node,
    fun _ ha _ hb heq => h (List.mem_singleton.mp hb ▸ heq ▸ ha)⟩⟩

def NodeIndex.getId (index : NodeIndex) (node : String) : Option ℕ := index.accounts.idxOf? node

def NodeIndex.getNode (index : NodeIndex) (idx : ℕ) : Option String := index.accounts[idx]?

def NodeIndex.size (index : NodeIndex) : ℕ := index.accounts.length

inductive GraphError where
  | valueError (message : String)
  | graphTooLarge (nodes maxGraphNodes : ℕ)
  | shardFailure (failed : ℕ)
  | nameError (name : String)
  deriving DecidableEq

/-- `GRAPH_MMAP_THRESHOLD`, `MAX_GRAPH_NODES` and `GRAPH_SHARD_ENABLED`. -/
structure Limits where
  mmapThreshold : ℕ
  maxGraphNodes : ℕ
  shardEnabled : Bool

structure Graph where
  index : NodeIndex
  edges : EdgeDict
  keys_nodup : (edges.map Prod.fst).Nodup
  indexed : ∀ e ∈ edges, e.1.1 ∈ index.accounts ∧ e.1.2 ∈ index.accounts

def Graph.empty : Graph := ⟨.empty, [], keys_nodup_nil, fun _ h => absurd h List.not_mem_nil⟩

/-- What `add_trade` reads of a trade. The time is absent where it does not parse. -/
structure Trade where
  baseAccount : Option String
  counterAccount : Option String
  baseAmount : Option ℚ
  ledgerCloseTime : Option ℚ

def recordTrade (key : String × String) (amount : ℚ) (time : Option ℚ) : EdgeDict → EdgeDict
  | [] => [(key, ⟨amount, 1, time.toList⟩)]
  | (k, data) :: edges =>
    if k = key then
      (k, ⟨data.totalVolume + amount, data.tradeCount + 1, data.timestamps ++ time.toList⟩) :: edges
    else (k, data) :: recordTrade key amount time edges

theorem recordTrade_keys (key : String × String) (amount : ℚ) (time : Option ℚ)
    (edges : EdgeDict) : (recordTrade key amount time edges).map Prod.fst =
      if key ∈ edges.map Prod.fst then edges.map Prod.fst else edges.map Prod.fst ++ [key] := by
  induction edges with
  | nil => rfl
  | cons e edges ih =>
    obtain ⟨k, data⟩ := e
    unfold recordTrade
    by_cases hk : k = key
    · simp [hk]
    · have hmem : key ∈ k :: edges.map Prod.fst ↔ key ∈ edges.map Prod.fst :=
        List.mem_cons.trans (or_iff_right (Ne.symm hk))
      rw [if_neg hk, List.map_cons, List.map_cons, ih, if_congr hmem rfl rfl]
      split_ifs <;> rfl

theorem NodeIndex.mem_add {index : NodeIndex} {node a : String} :
    a ∈ (index.add node).accounts ↔ a ∈ index.accounts ∨ a = node := by
  unfold NodeIndex.add
  split_ifs with h
  · exact ⟨.inl, fun ha => ha.elim id fun heq => heq ▸ h⟩
  · rw [List.mem_append, List.mem_singleton]

def Graph.addEdge (graph : Graph) (base counter : String) (amount : ℚ) (time : Option ℚ) :
    Graph where
  index := (graph.index.add base).add counter
  edges := recordTrade (base, counter) amount time graph.edges
  keys_nodup := by
    rw [recordTrade_keys]
    split_ifs with h
    · exact graph.keys_nodup
    · refine List.nodup_append.mpr ⟨graph.keys_nodup, List.nodup_singleton _, ?_⟩
      rintro a ha b hb rfl
      exact h (List.mem_singleton.mp hb ▸ ha)
  indexed := by
    intro e he
    have hkey : e.1 = (base, counter) ∨ e.1 ∈ graph.edges.map Prod.fst := by
      have hmem := List.mem_map_of_mem (f := Prod.fst) he
      rw [recordTrade_keys] at hmem
      split_ifs at hmem with h
      · exact .inr hmem
      · rw [List.mem_append, List.mem_singleton] at hmem
        exact hmem.symm
    simp only [NodeIndex.mem_add]
    rcases hkey with hkey | hkey
    · rw [hkey]
      exact ⟨.inl (.inr rfl), .inr rfl⟩
    · obtain ⟨e', he', heq⟩ := List.mem_map.mp hkey
      have := graph.indexed e' he'
      rw [heq] at this
      exact ⟨.inl (.inl this.1), .inl (.inl this.2)⟩

/-- A `TradeGraph` object, with its class and its cached rings. -/
structure Engine where
  graph : Graph
  sharded : Bool
  ringsCache : Option (RingQuery × List Ring)

def Engine.new : Engine := ⟨.empty, false, none⟩

def Engine.addTrade (limits : Limits) (engine : Engine) (trade : Trade) :
    Except GraphError Engine :=
  match trade.baseAccount, trade.counterAccount with
  | some base, some counter =>
    if base = "" ∨ counter = "" then .ok engine
    else
      let nodes := ((engine.graph.index.add base).add counter).size
      if ¬ engine.sharded ∧ limits.maxGraphNodes < nodes ∧ ¬ limits.shardEnabled then
        .error (.graphTooLarge nodes limits.maxGraphNodes)
      else .ok
        { graph := engine.graph.addEdge base counter (trade.baseAmount.getD 0)
            trade.ledgerCloseTime
          sharded := engine.sharded || decide (limits.maxGraphNodes < nodes)
          ringsCache := none }
  | _, _ => .ok engine

/-- The sparse matrices of the library: the columns it keeps of each row once the entries are
assigned. Zeros are not stored. -/
structure SparseMatrices where
  columns : ℕ → List ((ℕ × ℕ) × ℚ) → ℕ → List ℕ
  mem_columns : ∀ n entries i j, (entries.map Prod.fst).Nodup →
    (∀ e ∈ entries, e.1.1 < n ∧ e.1.2 < n) →
    (j ∈ columns n entries i ↔ ∃ value, value ≠ 0 ∧ ((i, j), value) ∈ entries)

def SparseMatrices.inOrder : SparseMatrices where
  columns _ entries i :=
    entries.filterMap fun e => if e.1.1 = i ∧ e.2 ≠ 0 then some e.1.2 else none
  mem_columns n entries i j _ _ := by
    rw [List.mem_filterMap]
    constructor
    · rintro ⟨⟨⟨_, _⟩, value⟩, hmem, h⟩
      split_ifs at h with hkept
      obtain ⟨rfl, hvalue⟩ := hkept
      obtain rfl := Option.some.inj h
      exact ⟨value, hvalue, hmem⟩
    · rintro ⟨value, hvalue, hmem⟩
      exact ⟨_, hmem, if_pos ⟨rfl, hvalue⟩⟩

/-- The entries `_load_edge_data` assigns. -/
def matrixEntries (graph : Graph) : List ((ℕ × ℕ) × ℚ) :=
  graph.edges.filterMap fun e =>
    match graph.index.getId e.1.1, graph.index.getId e.1.2 with
    | some i, some j => some ((i, j), e.2.totalVolume)
    | _, _ => none

/-- `adj.setdefault(i, []).append(j)`. -/
def setdefaultAppend (i j : ℕ) : List (ℕ × List ℕ) → List (ℕ × List ℕ)
  | [] => [(i, [j])]
  | (k, targets) :: adj =>
    if k = i then (k, targets ++ [j]) :: adj else (k, targets) :: setdefaultAppend i j adj

/-- One edge of the small-graph path: the adjacency and the pairs seen so far. -/
def addNeighbour (index : NodeIndex) (state : List (ℕ × List ℕ) × List (ℕ × ℕ))
    (key : String × String) : List (ℕ × List ℕ) × List (ℕ × ℕ) :=
  match index.getId key.1, index.getId key.2 with
  | some i, some j =>
    if (i, j) ∈ state.2 then state else (setdefaultAppend i j state.1, (i, j) :: state.2)
  | _, _ => state

def buildIntAdjacency (limits : Limits) (sparse : SparseMatrices) (graph : Graph) :
    Except GraphError (List (ℕ × List ℕ)) :=
  let n := graph.index.size
  if limits.mmapThreshold ≤ n then
    if limits.maxGraphNodes < n then .error (.graphTooLarge n limits.maxGraphNodes)
    else .ok (TarjanScc.rowGraph n (sparse.columns n (matrixEntries graph)))
  else .ok ((graph.edges.map Prod.fst).foldl (addNeighbour graph.index) ([], [])).1

def checkSizes (query : RingQuery) : Except GraphError Unit :=
  if query.minRingSize < 1 then .error (.valueError "min_ring_size must be at least 1")
  else if query.maxRingSize < query.minRingSize then
    .error (.valueError "max_ring_size must be greater than or equal to min_ring_size")
  else .ok ()

/-- `sorted(self._node_index.get_node(i) for i in scc)`. -/
def sccAccounts (index : NodeIndex) (scc : List ℕ) : List String :=
  (scc.filterMap index.getNode).insertionSort (· ≤ ·)

/-- The part of `find_wash_rings` after the look at the cache. -/
def searchRings (limits : Limits) (sparse : SparseMatrices) (graph : Graph) (query : RingQuery) :
    Except GraphError (List Ring) :=
  (buildIntAdjacency limits sparse graph).map fun adjacency =>
    ((TarjanScc.run adjacency).filterMap fun scc =>
      sccRing query (sccAccounts graph.index scc) graph.edges).insertionSort ByVolume

/-- `find_wash_rings` of a plain graph. -/
def Engine.findWashRings (limits : Limits) (sparse : SparseMatrices) (engine : Engine)
    (query : RingQuery) : Except GraphError (List Ring × Engine) := do
  checkSizes query
  match engine.ringsCache with
  | some (key, rings) =>
    if key = query then return (rings, engine)
  | none => pure ()
  let rings ← searchRings limits sparse engine.graph query
  return (rings, { engine with ringsCache := some (query, rings) })

/-- The edges that the adjacency of a graph with so many accounts keeps. -/
def Scanned (limits : Limits) (nodes : ℕ) (edges : EdgeDict) (u v : String) : Prop :=
  ∃ data, ((u, v), data) ∈ edges ∧ (limits.mmapThreshold ≤ nodes → data.totalVolume ≠ 0)

section

variable {index : NodeIndex} {i j k : ℕ} {u v : String} {adj : List (ℕ × List ℕ)}
  {seen : List (ℕ × ℕ)}

theorem NodeIndex.getId_of_mem (h : u ∈ index.accounts) :
    index.getId u = some (index.accounts.idxOf u) := idxOf?_eq_some_idxOf h

theorem NodeIndex.getId_eq_some :
    index.getId u = some i ↔ i < index.size ∧ index.getNode i = some u := by
  rw [NodeIndex.getId, NodeIndex.getNode, NodeIndex.size, List.idxOf?_eq_some_iff,
    List.getElem?_eq_some_iff]
  constructor
  · rintro ⟨hlt, hu, -⟩
    exact ⟨hlt, hlt, hu⟩
  · rintro ⟨hlt, _, hu⟩
    refine ⟨hlt, hu, fun m hm heq => hm.ne ?_⟩
    exact (index.nodup.getElem_inj_iff).mp (heq.trans hu.symm)

theorem mem_neighbours_setdefaultAppend {m : ℕ} :
    k ∈ TarjanScc.neighbours (setdefaultAppend i j adj) m ↔
      k ∈ TarjanScc.neighbours adj m ∨ m = i ∧ k = j := by
  induction adj with
  | nil =>
    unfold setdefaultAppend
    rw [TarjanScc.neighbours_cons]
    split_ifs with hm <;> simp [TarjanScc.neighbours, hm]
  | cons p adj ih =>
    obtain ⟨n, targets⟩ := p
    unfold setdefaultAppend
    split_ifs with hn
    · rw [TarjanScc.neighbours_cons, TarjanScc.neighbours_cons]
      split_ifs with hm <;> simp [hm, hn, hn ▸ hm]
    · rw [TarjanScc.neighbours_cons, TarjanScc.neighbours_cons]
      split_ifs with hm
      · simp [hm, hn]
      · exact ih

theorem mem_keys_setdefaultAppend {m : ℕ} :
    m ∈ (setdefaultAppend i j adj).map Prod.fst ↔ m ∈ adj.map Prod.fst ∨ m = i := by
  induction adj with
  | nil => simp [setdefaultAppend]
  | cons p adj ih =>
    obtain ⟨n, targets⟩ := p
    unfold setdefaultAppend
    split_ifs with hn
    · simp only [List.map_cons, List.mem_cons]
      exact ⟨.inl, fun h => h.elim id fun h => .inl (h.trans hn.symm)⟩
    · simp only [List.map_cons, List.mem_cons, ih, or_assoc]

structure Built (index : NodeIndex) (keys : List (String × String))
    (state : List (ℕ × List ℕ) × List (ℕ × ℕ)) : Prop where
  edges : ∀ i j, j ∈ TarjanScc.neighbours state.1 i ↔
    ∃ key ∈ keys, index.getId key.1 = some i ∧ index.getId key.2 = some j
  seen : ∀ i j, (i, j) ∈ state.2 → j ∈ TarjanScc.neighbours state.1 i
  keyed : ∀ i ∈ state.1.map Prod.fst, ∃ j, j ∈ TarjanScc.neighbours state.1 i

theorem Built.nil : Built index [] ([], []) where
  edges _ _ := iff_of_false List.not_mem_nil fun ⟨_, h, _⟩ => List.not_mem_nil h
  seen _ _ h := absurd h List.not_mem_nil
  keyed _ h := absurd h List.not_mem_nil

theorem Built.addNeighbour {keys : List (String × String)}
    {state : List (ℕ × List ℕ) × List (ℕ × ℕ)} (h : Built index keys state)
    (key : String × String) : Built index (keys ++ [key]) (addNeighbour index state key) := by
  have hkeys (i j : ℕ) : (∃ key' ∈ keys ++ [key], index.getId key'.1 = some i ∧
      index.getId key'.2 = some j) ↔ j ∈ TarjanScc.neighbours state.1 i ∨
        index.getId key.1 = some i ∧ index.getId key.2 = some j := by
    rw [h.edges]
    constructor
    · rintro ⟨key', hmem, hids⟩
      rcases List.mem_append.mp hmem with hmem | hmem
      · exact .inl ⟨key', hmem, hids⟩
      · exact .inr (List.mem_singleton.mp hmem ▸ hids)
    · rintro (⟨key', hmem, hids⟩ | hids)
      · exact ⟨key', List.mem_append_left _ hmem, hids⟩
      · exact ⟨key, List.mem_append_right _ (List.mem_singleton_self key), hids⟩
  have skip (hskip : ∀ i j, index.getId key.1 = some i ∧ index.getId key.2 = some j →
      j ∈ TarjanScc.neighbours state.1 i) : Built index (keys ++ [key]) state :=
    ⟨fun i j => (or_iff_left_of_imp (hskip i j)).symm.trans (hkeys i j).symm, h.seen, h.keyed⟩
  unfold TradeGraph.addNeighbour
  split
  · rename_i i j hi hj
    split_ifs with hseen
    · refine skip fun i' j' hids => ?_
      rw [hi, hj, Option.some.injEq, Option.some.injEq] at hids
      exact hids.1 ▸ hids.2 ▸ h.seen i j hseen
    · refine ⟨fun i' j' => ?_, fun i' j' hmem => ?_, fun i' hmem => ?_⟩
      · rw [hkeys, mem_neighbours_setdefaultAppend, hi, hj, Option.some.injEq, Option.some.injEq,
          eq_comm, @eq_comm _ j']
      · rw [mem_neighbours_setdefaultAppend]
        rcases List.mem_cons.mp hmem with heq | hmem
        · exact .inr (Prod.mk.inj heq)
        · exact .inl (h.seen i' j' hmem)
      · simp only [mem_neighbours_setdefaultAppend]
        rcases mem_keys_setdefaultAppend.mp hmem with hmem | rfl
        · obtain ⟨j', hj'⟩ := h.keyed i' hmem
          exact ⟨j', .inl hj'⟩
        · exact ⟨j, .inr ⟨rfl, rfl⟩⟩
  · rename_i hnone
    exact skip fun i j hids => absurd hids.2 (hnone i j hids.1)

theorem built_foldl {keys keys' : List (String × String)}
    {state : List (ℕ × List ℕ) × List (ℕ × ℕ)} (h : Built index keys state) :
    Built index (keys ++ keys') (keys'.foldl (addNeighbour index) state) := by
  induction keys' generalizing keys state with
  | nil => rwa [List.append_nil]
  | cons key keys' ih =>
    rw [List.append_cons]
    exact ih (h.addNeighbour key)

end

section

variable {limits : Limits} {sparse : SparseMatrices} {graph : Graph} {adjacency : List (ℕ × List ℕ)}
  {query : RingQuery} {i j : ℕ} {u v : String}

theorem mem_matrixEntries {value : ℚ} :
    ((i, j), value) ∈ matrixEntries graph ↔ ∃ u v data, ((u, v), data) ∈ graph.edges ∧
      graph.index.getId u = some i ∧ graph.index.getId v = some j ∧ data.totalVolume = value := by
  unfold matrixEntries
  rw [List.mem_filterMap]
  constructor
  · rintro ⟨⟨⟨u, v⟩, data⟩, hmem, h⟩
    split at h
    · rename_i i' j' hi hj
      obtain ⟨heq, rfl⟩ := Prod.mk.inj (Option.some.inj h)
      obtain ⟨rfl, rfl⟩ := Prod.mk.inj heq
      exact ⟨u, v, data, hmem, hi, hj, rfl⟩
    · cases h
  · rintro ⟨u, v, data, hmem, hi, hj, rfl⟩
    refine ⟨_, hmem, ?_⟩
    simp only [hi, hj]

theorem matrixEntries_lt {e : (ℕ × ℕ) × ℚ} (he : e ∈ matrixEntries graph) :
    e.1.1 < graph.index.size ∧ e.1.2 < graph.index.size := by
  obtain ⟨⟨i, j⟩, value⟩ := e
  obtain ⟨u, v, data, -, hi, hj, -⟩ := mem_matrixEntries.mp he
  exact ⟨(NodeIndex.getId_eq_some.mp hi).1, (NodeIndex.getId_eq_some.mp hj).1⟩

theorem NodeIndex.getId_inj {index : NodeIndex} (hu : index.getId u = some i)
    (hv : index.getId v = some i) : u = v := by
  have hnode := (NodeIndex.getId_eq_some.mp hu).2
  rw [(NodeIndex.getId_eq_some.mp hv).2] at hnode
  exact (Option.some.inj hnode).symm

theorem matrixEntries_nodup (graph : Graph) : ((matrixEntries graph).map Prod.fst).Nodup := by
  have hkeys := List.pairwise_map.mp graph.keys_nodup
  unfold matrixEntries
  rw [List.Nodup, List.pairwise_map, List.pairwise_filterMap]
  apply hkeys.imp
  rintro ⟨⟨u, v⟩, data⟩ ⟨⟨u', v'⟩, data'⟩ hne b hb b' hb' heq
  apply hne
  split at hb
  · rename_i i j hi hj
    split at hb'
    · rename_i i' j' hi' hj'
      obtain rfl := Option.some.inj hb
      obtain rfl := Option.some.inj hb'
      obtain ⟨rfl, rfl⟩ := Prod.mk.inj heq
      exact Prod.ext (NodeIndex.getId_inj hi hi') (NodeIndex.getId_inj hj hj')
    · cases hb'
  · cases hb

theorem mem_neighbours_buildIntAdjacency
    (h : buildIntAdjacency limits sparse graph = .ok adjacency) :
    j ∈ TarjanScc.neighbours adjacency i ↔ ∃ u v, graph.index.getId u = some i ∧
      graph.index.getId v = some j ∧ Scanned limits graph.index.size graph.edges u v := by
  simp only [buildIntAdjacency] at h
  split_ifs at h with hlarge hmax
  · obtain rfl := Except.ok.inj h
    rw [TarjanScc.mem_neighbours_rowGraph, sparse.mem_columns _ _ _ _ (matrixEntries_nodup graph)
      fun e he => matrixEntries_lt he]
    constructor
    · rintro ⟨-, value, hvalue, hmem⟩
      obtain ⟨u, v, data, hedge, hi, hj, rfl⟩ := mem_matrixEntries.mp hmem
      exact ⟨u, v, hi, hj, data, hedge, fun _ => hvalue⟩
    · rintro ⟨u, v, hi, hj, data, hedge, hvalue⟩
      exact ⟨(NodeIndex.getId_eq_some.mp hi).1, _, hvalue hlarge,
        mem_matrixEntries.mpr ⟨u, v, data, hedge, hi, hj, rfl⟩⟩
  · obtain rfl := Except.ok.inj h
    rw [(built_foldl Built.nil).edges, List.nil_append]
    constructor
    · rintro ⟨key, hkey, hi, hj⟩
      obtain ⟨⟨⟨u, v⟩, data⟩, hedge, rfl⟩ := List.mem_map.mp hkey
      exact ⟨u, v, hi, hj, data, hedge, fun hle => absurd hle hlarge⟩
    · rintro ⟨u, v, hi, hj, data, hedge, -⟩
      exact ⟨(u, v), List.mem_map_of_mem (f := Prod.fst) hedge, hi, hj⟩

theorem exists_neighbour_of_key (h : buildIntAdjacency limits sparse graph = .ok adjacency)
    (hi : i ∈ adjacency.map Prod.fst) : ∃ j, j ∈ TarjanScc.neighbours adjacency i := by
  simp only [buildIntAdjacency] at h
  split_ifs at h
  · obtain rfl := Except.ok.inj h
    exact TarjanScc.exists_neighbour_of_key hi
  · obtain rfl := Except.ok.inj h
    exact (built_foldl Built.nil).keyed i hi

theorem Scanned.indexed (h : Scanned limits graph.index.size graph.edges u v) :
    u ∈ graph.index.accounts ∧ v ∈ graph.index.accounts := by
  obtain ⟨data, hmem, -⟩ := h
  exact graph.indexed _ hmem

theorem mutual_iff (h : buildIntAdjacency limits sparse graph = .ok adjacency)
    (hu : graph.index.getId u = some i) (hv : graph.index.getId v = some j) :
    Mutual (TarjanScc.Edge (TarjanScc.neighbours adjacency)) i j ↔
      Mutual (Scanned limits graph.index.size graph.edges) u v := by
  have hedge (i j : ℕ) (hij : TarjanScc.Edge (TarjanScc.neighbours adjacency) i j) :
      Scanned limits graph.index.size graph.edges ((graph.index.getNode i).getD "")
        ((graph.index.getNode j).getD "") := by
    obtain ⟨a, b, ha, hb, hab⟩ := (mem_neighbours_buildIntAdjacency h).mp hij
    rwa [(NodeIndex.getId_eq_some.mp ha).2, (NodeIndex.getId_eq_some.mp hb).2]
  have hedge' (a b : String) (hab : Scanned limits graph.index.size graph.edges a b) :
      TarjanScc.Edge (TarjanScc.neighbours adjacency) ((graph.index.getId a).getD 0)
        ((graph.index.getId b).getD 0) := by
    have ha := NodeIndex.getId_of_mem hab.indexed.1
    have hb := NodeIndex.getId_of_mem hab.indexed.2
    rw [ha, hb]
    exact (mem_neighbours_buildIntAdjacency h).mpr ⟨a, b, ha, hb, hab⟩
  constructor
  · intro hij
    have huv := hij.lift (fun i => (graph.index.getNode i).getD "") hedge
    rwa [(NodeIndex.getId_eq_some.mp hu).2, (NodeIndex.getId_eq_some.mp hv).2] at huv
  · intro huv
    have hij := huv.lift (fun a => (graph.index.getId a).getD 0) hedge'
    rwa [hu, hv] at hij

/-- The accounts of a component of indices. -/
def sccSet (index : NodeIndex) (scc : List ℕ) : Finset String :=
  (scc.filterMap index.getNode).toFinset

theorem mem_sccSet {index : NodeIndex} {scc : List ℕ} :
    u ∈ sccSet index scc ↔ ∃ i ∈ scc, index.getId u = some i := by
  rw [sccSet, List.mem_toFinset, List.mem_filterMap]
  refine exists_congr fun i => and_congr_right fun _ => ?_
  rw [NodeIndex.getId_eq_some]
  refine ⟨fun hu => ⟨?_, hu⟩, And.right⟩
  exact (List.getElem?_eq_some_iff.mp hu).1

theorem insertionSort_eq_sort {l : List String} (hnodup : l.Nodup) :
    l.insertionSort (· ≤ ·) = l.toFinset.sort := by
  refine List.Perm.eq_of_pairwise' (List.pairwise_insertionSort _ _) (Finset.pairwise_sort _ _) ?_
  refine (List.perm_insertionSort _ _).trans ((Finset.sort_perm_toList _ _).trans ?_).symm
  exact List.toFinset_toList hnodup

theorem sccAccounts_eq {index : NodeIndex} {scc : List ℕ} (hnodup : scc.Nodup) :
    sccAccounts index scc = (sccSet index scc).sort := by
  have hnodes : (scc.filterMap index.getNode).Nodup := by
    refine hnodup.filterMap fun i j u hi hj => ?_
    have hlt := (List.getElem?_eq_some_iff.mp hi).1
    have hlt' := (List.getElem?_eq_some_iff.mp hj).1
    exact Option.some.inj ((NodeIndex.getId_eq_some.mpr ⟨hlt, hi⟩).symm.trans
      (NodeIndex.getId_eq_some.mpr ⟨hlt', hj⟩))
  exact insertionSort_eq_sort hnodes

theorem isComponent_sccSet (h : buildIntAdjacency limits sparse graph = .ok adjacency)
    {scc : List ℕ} (hscc : scc ∈ TarjanScc.run adjacency) :
    IsComponent (Scanned limits graph.index.size graph.edges) (sccSet graph.index scc) := by
  have hcomps := TarjanScc.run_components adjacency
  have htouched (i : ℕ) (hi : i ∈ scc) : ∃ u, graph.index.getId u = some i ∧
      ∃ v, Scanned limits graph.index.size graph.edges u v ∨
        Scanned limits graph.index.size graph.edges v u := by
    rcases TarjanScc.mem_run.mp (List.mem_flatten.mpr ⟨scc, hscc, hi⟩) with hkey | ⟨k, hk⟩
    · obtain ⟨j, hj⟩ := exists_neighbour_of_key h hkey
      obtain ⟨u, v, hu, -, huv⟩ := (mem_neighbours_buildIntAdjacency h).mp hj
      exact ⟨u, hu, v, .inl huv⟩
    · obtain ⟨v, u, -, hu, hvu⟩ := (mem_neighbours_buildIntAdjacency h).mp hk
      exact ⟨u, hu, v, .inr hvu⟩
  refine ⟨?_, fun u hu => ?_, fun u hu w => ?_⟩
  · obtain ⟨i, hi⟩ := List.exists_mem_of_ne_nil _ (hcomps.nonempty scc hscc)
    obtain ⟨u, hu, -⟩ := htouched i hi
    exact ⟨u, mem_sccSet.mpr ⟨i, hi, hu⟩⟩
  · obtain ⟨i, hi, hid⟩ := mem_sccSet.mp hu
    obtain ⟨u', hu', hv⟩ := htouched i hi
    exact NodeIndex.getId_inj hid hu' ▸ hv
  · obtain ⟨i, hi, hid⟩ := mem_sccSet.mp hu
    rw [mem_sccSet]
    constructor
    · rintro ⟨j, hj, hid'⟩
      exact (mutual_iff h hid hid').mp ((hcomps.together scc hscc i hi j).mp hj)
    · intro hw
      obtain rfl | ⟨v, -, hvw⟩ := hw.1.cases_tail
      · exact ⟨i, hi, hid⟩
      · have hid' := NodeIndex.getId_of_mem hvw.indexed.2
        exact ⟨_, (hcomps.together scc hscc i hi _).mpr ((mutual_iff h hid hid').mpr hw), hid'⟩

theorem exists_scc_of_isComponent (h : buildIntAdjacency limits sparse graph = .ok adjacency)
    {C : Finset String} (hC : IsComponent (Scanned limits graph.index.size graph.edges) C) :
    ∃ scc ∈ TarjanScc.run adjacency, sccSet graph.index scc = C := by
  obtain ⟨u, hu⟩ := hC.nonempty
  have hrun : ∃ i, graph.index.getId u = some i ∧ i ∈ (TarjanScc.run adjacency).flatten := by
    obtain ⟨v, huv | hvu⟩ := hC.touched u hu
    · have hi := NodeIndex.getId_of_mem huv.indexed.1
      have hj := NodeIndex.getId_of_mem huv.indexed.2
      exact ⟨_, hi, TarjanScc.mem_run.mpr (.inl (TarjanScc.key_of_edge
        ((mem_neighbours_buildIntAdjacency h).mpr ⟨u, v, hi, hj, huv⟩)))⟩
    · have hi := NodeIndex.getId_of_mem hvu.indexed.2
      have hj := NodeIndex.getId_of_mem hvu.indexed.1
      exact ⟨_, hi, TarjanScc.mem_run.mpr (.inr ⟨_,
        (mem_neighbours_buildIntAdjacency h).mpr ⟨v, u, hj, hi, hvu⟩⟩)⟩
  obtain ⟨i, hid, hi⟩ := hrun
  obtain ⟨scc, hscc, hi⟩ := List.mem_flatten.mp hi
  exact ⟨scc, hscc, (isComponent_sccSet h hscc).ext hC (mem_sccSet.mpr ⟨i, hi, hid⟩) hu⟩

theorem mem_searchRings {rings : List Ring} {ring : Ring}
    (h : searchRings limits sparse graph query = .ok rings) :
    ring ∈ rings ↔ ∃ C, IsComponent (Scanned limits graph.index.size graph.edges) C ∧
      sccRing query C.sort graph.edges = some ring := by
  rw [searchRings] at h
  cases hadj : buildIntAdjacency limits sparse graph with
  | error e =>
    rw [hadj] at h
    cases h
  | ok adjacency =>
    rw [hadj, Except.map] at h
    obtain rfl := Except.ok.inj h
    rw [List.mem_insertionSort, List.mem_filterMap]
    constructor
    · rintro ⟨scc, hscc, hring⟩
      rw [sccAccounts_eq ((TarjanScc.run_components adjacency).nodup_of_mem hscc)] at hring
      exact ⟨_, isComponent_sccSet hadj hscc, hring⟩
    · rintro ⟨C, hC, hring⟩
      obtain ⟨scc, hscc, rfl⟩ := exists_scc_of_isComponent hadj hC
      refine ⟨scc, hscc, ?_⟩
      rwa [sccAccounts_eq ((TarjanScc.run_components adjacency).nodup_of_mem hscc)]

theorem searchRings_ok_iff : (∃ rings, searchRings limits sparse graph query = .ok rings) ↔
    graph.index.size < limits.mmapThreshold ∨ graph.index.size ≤ limits.maxGraphNodes := by
  simp only [searchRings, buildIntAdjacency]
  split_ifs with hlarge hmax
  · refine iff_of_false (fun ⟨_, hrings⟩ => nomatch hrings) ?_
    omega
  · exact iff_of_true ⟨_, rfl⟩ (.inr (not_lt.mp hmax))
  · exact iff_of_true ⟨_, rfl⟩ (.inl (not_le.mp hlarge))

end

end TradeGraph
