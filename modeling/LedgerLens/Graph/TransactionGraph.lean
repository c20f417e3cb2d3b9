import LedgerLens.FallibleRuns
import LedgerLens.Graph.TradeGraph

/-!
# Transaction graphs

`build_transaction_graph` and the function `find_wash_rings` of `detection/graph_engine.py`, beside
`TradeGraph` fed the same trades. The component search of the graph library and the draws of the
random numbers are parameters.
-/
namespace TransactionGraph

open FallibleRuns RingMetrics StrongComponents TradeGraph

/-- A cell is absent where it has no value. -/
structure TradeTable where
  columns : List String
  rows : List Trade

/-- `str` of the cell of an account. -/
def accountText (cell : Option String) : String := cell.getD "None"

def requiredColumns : List String := ["base_account", "counter_account"]

def listText (names : List String) : String :=
  "[" ++ ", ".intercalate (names.map fun name => "'" ++ name ++ "'") ++ "]"

def amountOf (columns : List String) (row : Trade) : ℚ :=
  if "base_amount" ∈ columns then max (row.baseAmount.getD 0) 0 else 0

def timeOf (columns : List String) (row : Trade) : Option ℚ :=
  if "ledger_close_time" ∈ columns then row.ledgerCloseTime else none

def rowKey (row : Trade) : String × String :=
  (accountText row.baseAccount, accountText row.counterAccount)

/-- `sorted(account for account in accounts if account)`. -/
def accountNames (rows : List Trade) : List String :=
  ((rows.flatMap fun row => [(rowKey row).1, (rowKey row).2]).dedup.filter
    fun account => account ≠ "").insertionSort (· ≤ ·)

/-- A graph without edges. -/
def ofNodes (nodes : List String) : Graph where
  index := nodes.foldl NodeIndex.add .empty
  edges := []
  keys_nodup := keys_nodup_nil
  indexed _ h := absurd h List.not_mem_nil

def addRow (columns : List String) (graph : Graph) (row : Trade) : Graph :=
  graph.addEdge (rowKey row).1 (rowKey row).2 (amountOf columns row) (timeOf columns row)

def buildTransactionGraph (trades : TradeTable) : Except GraphError Graph :=
  if trades.columns = [] ∨ trades.rows = [] then .ok .empty
  else
    let missing := requiredColumns.filter fun name => name ∉ trades.columns
    if missing ≠ [] then
      .error (.valueError ("trades is missing required columns: " ++ listText missing))
    else
      .ok (trades.rows.foldl (addRow trades.columns) (ofNodes (accountNames trades.rows)))

def Edge (graph : Graph) (u v : String) : Prop := (u, v) ∈ graph.edges.map Prod.fst

def successors (graph : Graph) (u : String) : List String :=
  graph.edges.filterMap fun e => if e.1.1 = u then some e.1.2 else none

theorem mem_successors {graph : Graph} {u v : String} :
    v ∈ successors graph u ↔ Edge graph u v := by
  rw [successors, Edge, List.mem_filterMap, List.mem_map]
  refine exists_congr fun e => and_congr_right fun _ => ?_
  obtain ⟨⟨a, b⟩, data⟩ := e
  by_cases h : a = u <;> simp [h]

/-- `strongly_connected_components` of the graph library. -/
structure ComponentSearch where
  components : Graph → List (List String)
  isComponents : ∀ graph, Components (Edge graph) (components graph)
  covers : ∀ graph u, u ∈ (components graph).flatten ↔ u ∈ graph.index.accounts

theorem Edge.indexed {graph : Graph} {u v : String} (h : Edge graph u v) :
    u ∈ graph.index.accounts ∧ v ∈ graph.index.accounts := by
  obtain ⟨e, he, heq⟩ := List.mem_map.mp h
  have hindexed := graph.indexed e he
  rwa [heq] at hindexed

/-- A row for each account. -/
def adjacencyOf (graph : Graph) : List (String × List String) :=
  graph.index.accounts.map fun u => (u, successors graph u)

theorem adjacencyOf_keys (graph : Graph) :
    (adjacencyOf graph).map Prod.fst = graph.index.accounts := by
  rw [adjacencyOf, List.map_map]
  exact List.map_id _

theorem mem_neighbours_adjacencyOf {graph : Graph} {u v : String} :
    v ∈ TarjanScc.neighbours (adjacencyOf graph) u ↔ Edge graph u v := by
  rw [TarjanScc.mem_neighbours_iff ((adjacencyOf_keys graph).symm ▸ graph.index.nodup)]
  constructor
  · rintro ⟨targets, hmem, hv⟩
    obtain ⟨_, -, heq⟩ := List.mem_map.mp hmem
    obtain ⟨rfl, rfl⟩ := Prod.mk.inj heq
    exact mem_successors.mp hv
  · intro h
    exact ⟨successors graph u, List.mem_map.mpr ⟨u, h.indexed.1, rfl⟩, mem_successors.mpr h⟩

/-- The search of `IterativeTarjanSCC`, with every account as a root. -/
def ComponentSearch.tarjan : ComponentSearch where
  components graph := TarjanScc.run (adjacencyOf graph)
  isComponents graph := by
    have hedge : TarjanScc.Edge (TarjanScc.neighbours (adjacencyOf graph)) = Edge graph := by
      funext u v
      exact propext mem_neighbours_adjacencyOf
    exact hedge ▸ TarjanScc.run_components (adjacencyOf graph)
  covers graph u := by
    rw [TarjanScc.mem_run, adjacencyOf_keys]
    refine or_iff_left_of_imp fun ⟨v, hv⟩ => ?_
    exact (mem_neighbours_adjacencyOf.mp hv).indexed.2

/-- What a generator draws: positions by weight, and the numbers below a bound one after another. -/
structure RandomDraws where
  choice : List ℚ → ℕ → List ℕ
  integers : ℕ → ℕ → ℕ

def randomWalkLength : ℕ := 32

def walk (graph : Graph) (draws : RandomDraws) (nodeBudget : ℕ) :
    ℕ → String → List String × ℕ → List String × ℕ
  | 0, _, state => state
  | steps + 1, current, (sampled, drawn) =>
    let sampled := if current ∈ sampled then sampled else sampled ++ [current]
    if nodeBudget ≤ sampled.length then (sampled, drawn)
    else
      match successors graph current with
      | [] => (sampled, drawn)
      | next :: others =>
        let idx := draws.integers drawn (others.length + 1)
        walk graph draws nodeBudget steps ((next :: others).getD idx next) (sampled, drawn + 1)

def randomWalkSample (graph : Graph) (nodeBudget : ℕ) (draws : RandomDraws) : List String :=
  let nodes := graph.index.accounts
  if nodes.length ≤ nodeBudget then nodes
  else
    let degrees := nodes.map fun node => (successors graph node).length + 1
    let weights := degrees.map fun degree => (degree : ℚ) / degrees.sum
    ((draws.choice weights (nodeBudget * 4)).foldl (fun state start =>
      if nodeBudget ≤ state.1.length then state
      else walk graph draws nodeBudget randomWalkLength (nodes.getD start "") state) ([], 0)).1

/-- `graph.subgraph(nodes)`. -/
def subgraph (graph : Graph) (nodes : List String) : Graph where
  index := ⟨graph.index.accounts.filter fun u => decide (u ∈ nodes), graph.index.nodup.filter _⟩
  edges := inside nodes graph.edges
  keys_nodup := graph.keys_nodup.sublist (List.filter_sublist.map _)
  indexed e he := by
    obtain ⟨hmem, hbase, hcounter⟩ := mem_inside.mp he
    obtain ⟨hbase', hcounter'⟩ := graph.indexed e hmem
    exact ⟨List.mem_filter.mpr ⟨hbase', decide_eq_true hbase⟩,
      List.mem_filter.mpr ⟨hcounter', decide_eq_true hcounter⟩⟩

structure Approximation where
  threshold : Option ℕ
  nodeBudget : Option ℕ

/-- The graph that is searched, and whether it is a sample. -/
def searchedGraph (environment arguments : Approximation) (draws : RandomDraws) (graph : Graph) :
    Graph × Bool :=
  match arguments.threshold <|> environment.threshold with
  | none => (graph, false)
  | some threshold =>
    if threshold < graph.index.size then
      -- `sample_node_budget or ...`: a budget of zero counts as none.
      let nodeBudget := match arguments.nodeBudget with
        | some (budget + 1) => budget + 1
        | _ => environment.nodeBudget.getD threshold
      (subgraph graph (randomWalkSample graph nodeBudget draws), true)
    else (graph, false)

def washRings (search : ComponentSearch) (graph : Graph) (query : RingQuery) : List Ring :=
  ((search.components graph).filterMap fun component =>
    sccRing query (component.insertionSort (· ≤ ·)) graph.edges).insertionSort ByVolume

def unboundName (name : String) : Except GraphError Unit := .error (.nameError name)

/-- The rings and whether they are of a sample. The result would be stored under `cache_key`, which
only the methods of `TradeGraph` bind. -/
def findWashRings (search : ComponentSearch) (draws : RandomDraws)
    (environment arguments : Approximation) (graph : Graph) (query : RingQuery) :
    Except GraphError (List (Ring × Bool)) := do
  checkSizes query
  let searched := searchedGraph environment arguments draws graph
  let result := (washRings search searched.1 query).map fun ring => (ring, searched.2)
  unboundName "cache_key"
  return result

def moduleRings (search : ComponentSearch) (draws : RandomDraws)
    (environment arguments : Approximation) (trades : TradeTable) (query : RingQuery) :
    Except GraphError (List (Ring × Bool)) := do
  let graph ← buildTransactionGraph trades
  findWashRings search draws environment arguments graph query

/-- The rings of a `TradeGraph` that is fed the rows. -/
def engineRings (limits : Limits) (sparse : SparseMatrices) (trades : TradeTable)
    (query : RingQuery) : Except GraphError (List Ring) := do
  let engine ← trades.rows.foldlM (Engine.addTrade limits) .new
  let found ← engine.findWashRings limits sparse query
  return found.1

def SameRings (found : Except GraphError (List (Ring × Bool)))
    (found' : Except GraphError (List Ring)) : Prop :=
  ∃ rings rings', found = .ok rings ∧ found' = .ok rings' ∧
    ∀ ring, ring ∈ rings.map Prod.fst ↔ ring ∈ rings'

section

variable {search : ComponentSearch} {limits : Limits} {sparse : SparseMatrices} {graph : Graph}
  {query : RingQuery} {trades : TradeTable} {columns : List String} {rows : List Trade}
  {ring : Ring} {u v : String}

/-- Every account has an edge. -/
def Touched (graph : Graph) : Prop :=
  ∀ u ∈ graph.index.accounts, ∃ v, Edge graph u v ∨ Edge graph v u

theorem mem_washRings (htouched : Touched graph) :
    ring ∈ washRings search graph query ↔
      ∃ C, IsComponent (Edge graph) C ∧ sccRing query C.sort graph.edges = some ring := by
  have hcomps := search.isComponents graph
  have hcomponent {c : List String} (hc : c ∈ search.components graph) :
      IsComponent (Edge graph) c.toFinset ∧ c.insertionSort (· ≤ ·) = c.toFinset.sort := by
    refine ⟨⟨?_, fun u hu => ?_, fun u hu w => ?_⟩, ?_⟩
    · exact List.toFinset_nonempty_iff _ |>.mpr (hcomps.nonempty c hc)
    · exact htouched u ((search.covers graph u).mp
        (List.mem_flatten.mpr ⟨c, hc, List.mem_toFinset.mp hu⟩))
    · exact List.mem_toFinset.trans (hcomps.together c hc u (List.mem_toFinset.mp hu) w)
    · exact insertionSort_eq_sort (hcomps.nodup_of_mem hc)
  rw [washRings, List.mem_insertionSort, List.mem_filterMap]
  constructor
  · rintro ⟨c, hc, hring⟩
    obtain ⟨hC, hsort⟩ := hcomponent hc
    exact ⟨_, hC, hsort ▸ hring⟩
  · rintro ⟨C, hC, hring⟩
    obtain ⟨u, hu⟩ := hC.nonempty
    obtain ⟨v, hv⟩ := hC.touched u hu
    have hindexed : u ∈ graph.index.accounts := hv.elim (fun h => h.indexed.1) fun h => h.indexed.2
    obtain ⟨c, hc, huc⟩ := List.mem_flatten.mp ((search.covers graph u).mpr hindexed)
    obtain ⟨hcC, hsort⟩ := hcomponent hc
    obtain rfl := hcC.ext hC (List.mem_toFinset.mpr huc) hu
    exact ⟨c, hc, hsort.symm ▸ hring⟩

theorem addEdge_keys {base counter : String} {amount : ℚ} {time : Option ℚ} :
    Edge (graph.addEdge base counter amount time) u v ↔ Edge graph u v ∨
        (u, v) = (base, counter) := by
  rw [Edge, Edge, Graph.addEdge, recordTrade_keys]
  split_ifs with h
  · exact (or_iff_left_of_imp fun heq => heq ▸ h).symm
  · rw [List.mem_append, List.mem_singleton]

theorem foldl_addRow_edge : Edge (rows.foldl (addRow columns) graph) u v ↔
    Edge graph u v ∨ ∃ row ∈ rows, rowKey row = (u, v) := by
  induction rows generalizing graph with
  | nil => simp
  | cons row rows ih =>
    rw [List.foldl_cons, ih, addRow, addEdge_keys, or_assoc, List.exists_mem_cons_iff, eq_comm]

theorem mem_foldl_addRow : u ∈ (rows.foldl (addRow columns) graph).index.accounts ↔
    u ∈ graph.index.accounts ∨ ∃ row ∈ rows, u = (rowKey row).1 ∨ u = (rowKey row).2 := by
  induction rows generalizing graph with
  | nil => simp
  | cons row rows ih =>
    rw [List.foldl_cons, ih, List.exists_mem_cons_iff, ← or_assoc]
    refine or_congr_left ?_
    rw [addRow, Graph.addEdge, NodeIndex.mem_add, NodeIndex.mem_add, or_assoc]

theorem mem_foldl_add {nodes : List String} {index : NodeIndex} :
    u ∈ (nodes.foldl NodeIndex.add index).accounts ↔ u ∈ index.accounts ∨ u ∈ nodes := by
  induction nodes generalizing index with
  | nil => simp
  | cons node nodes ih => rw [List.foldl_cons, ih, NodeIndex.mem_add, List.mem_cons, or_assoc]

theorem foldl_addRow_touched (hstart : ∀ u ∈ graph.index.accounts,
    ∃ row ∈ rows, u = (rowKey row).1 ∨ u = (rowKey row).2) :
    Touched (rows.foldl (addRow columns) graph) := by
  intro u hu
  have hrow : ∃ row ∈ rows, u = (rowKey row).1 ∨ u = (rowKey row).2 :=
    (mem_foldl_addRow.mp hu).elim (hstart u) id
  obtain ⟨row, hrow, rfl | rfl⟩ := hrow
  · exact ⟨_, .inl (foldl_addRow_edge.mpr (.inr ⟨row, hrow, rfl⟩))⟩
  · exact ⟨_, .inr (foldl_addRow_edge.mpr (.inr ⟨row, hrow, rfl⟩))⟩

theorem mem_ofNodes_accountNames (h : u ∈ (ofNodes (accountNames rows)).index.accounts) :
    ∃ row ∈ rows, u = (rowKey row).1 ∨ u = (rowKey row).2 := by
  rcases mem_foldl_add.mp h with h | h
  · exact absurd h List.not_mem_nil
  · have hname := (List.mem_filter.mp ((List.mem_insertionSort _).mp h)).1
    obtain ⟨row, hrow, hmem⟩ := List.mem_flatMap.mp (List.mem_dedup.mp hname)
    exact ⟨row, hrow, by simpa using hmem⟩

theorem buildTransactionGraph_touched (h : buildTransactionGraph trades = .ok graph) :
    Touched graph := by
  simp only [buildTransactionGraph] at h
  split_ifs at h with hempty hmissing
  · obtain rfl := Except.ok.inj h
    exact fun u hu => absurd hu List.not_mem_nil
  · obtain rfl := Except.ok.inj h
    exact foldl_addRow_touched fun _ => mem_ofNodes_accountNames

/-- A row that both paths read alike. -/
structure Plain (row : Trade) : Prop where
  base : ∃ base, row.baseAccount = some base ∧ base ≠ ""
  counter : ∃ counter, row.counterAccount = some counter ∧ counter ≠ ""
  amount : 0 ≤ row.baseAmount.getD 0

theorem addTrade_eq_addRow {engine engine' : Engine} {row : Trade} (hrow : Plain row)
    (hamounts : "base_amount" ∈ columns) (htimes : "ledger_close_time" ∈ columns)
    (h : engine.addTrade limits row = .ok engine') :
    engine'.graph = addRow columns engine.graph row ∧ engine'.ringsCache = none := by
  obtain ⟨base, hbase, hbase'⟩ := hrow.base
  obtain ⟨counter, hcounter, hcounter'⟩ := hrow.counter
  simp only [Engine.addTrade, hbase, hcounter] at h
  rw [if_neg (not_or.mpr ⟨hbase', hcounter'⟩)] at h
  split_ifs at h with hlarge
  obtain rfl := Except.ok.inj h
  refine ⟨?_, rfl⟩
  rw [addRow, rowKey, hbase, hcounter, amountOf, if_pos hamounts, max_eq_left hrow.amount, timeOf,
    if_pos htimes]
  rfl

theorem foldlM_addTrade {engine : Engine} (hrows : ∀ row ∈ rows, Plain row)
    (hamounts : "base_amount" ∈ columns) (htimes : "ledger_close_time" ∈ columns)
    (h : rows.foldlM (Engine.addTrade limits) .new = .ok engine) :
    engine.graph = rows.foldl (addRow columns) .empty ∧ engine.ringsCache = none := by
  refine foldlM_invariant (P := fun seen engine => (∀ row ∈ seen, Plain row) →
    engine.graph = seen.foldl (addRow columns) .empty ∧ engine.ringsCache = none)
    (fun _ => ⟨rfl, rfl⟩) ?_ h hrows
  intro seen row before after ih hstep hplain
  obtain ⟨hseen, hrow⟩ := List.forall_mem_append.mp hplain
  obtain ⟨hgraph, hcache⟩ :=
    addTrade_eq_addRow (hrow row (List.mem_singleton_self row)) hamounts htimes hstep
  rw [hgraph, (ih hseen).1, List.foldl_append]
  exact ⟨rfl, hcache⟩

theorem addRow_edges (row : Trade) : (addRow columns graph row).edges =
    recordTrade (rowKey row) (amountOf columns row) (timeOf columns row) graph.edges := rfl

theorem foldl_addRow_edges {graph' : Graph} (h : graph.edges = graph'.edges) :
    (rows.foldl (addRow columns) graph).edges = (rows.foldl (addRow columns) graph').edges := by
  induction rows generalizing graph graph' with
  | nil => exact h
  | cons row rows ih =>
    refine ih ?_
    rw [addRow_edges, addRow_edges, h]

theorem size_eq_of_edges {graph' : Graph} (htouched : Touched graph) (htouched' : Touched graph')
    (hedges : graph.edges = graph'.edges) : graph.index.size = graph'.index.size := by
  have hedge (u v : String) : Edge graph u v ↔ Edge graph' u v := by rw [Edge, Edge, hedges]
  refine List.Perm.length_eq ((List.perm_ext_iff_of_nodup graph.index.nodup
    graph'.index.nodup).mpr fun u => ⟨fun hu => ?_, fun hu => ?_⟩)
  · obtain ⟨v, hv⟩ := htouched u hu
    rw [hedge, hedge] at hv
    exact hv.elim (fun h => h.indexed.1) fun h => h.indexed.2
  · obtain ⟨v, hv⟩ := htouched' u hu
    rw [← hedge, ← hedge] at hv
    exact hv.elim (fun h => h.indexed.1) fun h => h.indexed.2

theorem scanned_iff_edge (hsmall : graph.index.size < limits.mmapThreshold) :
    Scanned limits graph.index.size graph.edges u v ↔ Edge graph u v := by
  rw [Scanned, Edge, List.mem_map]
  constructor
  · rintro ⟨data, hmem, -⟩
    exact ⟨_, hmem, rfl⟩
  · rintro ⟨⟨key, data⟩, hmem, rfl⟩
    exact ⟨data, hmem, fun hlarge => absurd hlarge (not_le.mpr hsmall)⟩

/-- Below the thresholds the function has the rings of a `TradeGraph` at the point where it stores
them. -/
theorem mem_washRings_iff_engine {rings : List Ring} (hrows : ∀ row ∈ trades.rows, Plain row)
    (hamounts : "base_amount" ∈ trades.columns) (htimes : "ledger_close_time" ∈ trades.columns)
    (hgraph : buildTransactionGraph trades = .ok graph)
    (hsmall : graph.index.size < limits.mmapThreshold)
    (hrings : engineRings limits sparse trades query = .ok rings) :
    ring ∈ washRings search graph query ↔ ring ∈ rings := by
  obtain ⟨engine, hfold, hfound⟩ := bind_eq_ok.mp hrings
  obtain ⟨found, hfind, hfirst⟩ := bind_eq_ok.mp hfound
  obtain ⟨hengine, hcache⟩ := foldlM_addTrade hrows hamounts htimes hfold
  have hedges : engine.graph.edges = graph.edges := by
    rw [hengine]
    simp only [buildTransactionGraph] at hgraph
    split_ifs at hgraph with hempty hmissing
    · obtain rfl := Except.ok.inj hgraph
      rcases hempty with hcolumns | hnone
      · exact absurd (hcolumns ▸ hamounts) List.not_mem_nil
      · rw [hnone]
        rfl
    · obtain rfl := Except.ok.inj hgraph
      exact foldl_addRow_edges rfl
  have htouched : Touched engine.graph := by
    rw [hengine]
    exact foldl_addRow_touched fun u hu => absurd hu List.not_mem_nil
  have hsize := size_eq_of_edges htouched (buildTransactionGraph_touched hgraph) hedges
  have hscanned : Scanned limits engine.graph.index.size engine.graph.edges = Edge graph := by
    funext u v
    rw [hsize, hedges]
    exact propext (scanned_iff_edge hsmall)
  have hsearch : searchRings limits sparse engine.graph query = .ok rings := by
    rw [Engine.findWashRings, hcache] at hfind
    obtain ⟨_, -, hfind⟩ := bind_eq_ok.mp hfind
    obtain ⟨_, hsearch, hfound⟩ := bind_eq_ok.mp hfind
    obtain rfl := pure_eq_ok.mp hfound
    obtain rfl := pure_eq_ok.mp hfirst
    exact hsearch
  rw [mem_washRings (buildTransactionGraph_touched hgraph), mem_searchRings hsearch,
    hscanned, hedges]

end

theorem findWashRings_not_ok (search : ComponentSearch) (draws : RandomDraws)
    (environment arguments : Approximation) (graph : Graph) (query : RingQuery)
    (rings : List (Ring × Bool)) :
    findWashRings search draws environment arguments graph query ≠ .ok rings := by
  intro h
  obtain ⟨_, -, hsearched⟩ := bind_eq_ok.mp h
  obtain ⟨_, hunbound, -⟩ := bind_eq_ok.mp hsearched
  cases hunbound

theorem never_same_rings (search : ComponentSearch) (draws : RandomDraws)
    (environment arguments : Approximation) (limits : Limits) (sparse : SparseMatrices)
    (trades : TradeTable) (query : RingQuery) :
    ¬SameRings (moduleRings search draws environment arguments trades query)
      (engineRings limits sparse trades query) := by
  rintro ⟨rings, -, hrings, -, -⟩
  obtain ⟨graph, -, hfound⟩ := bind_eq_ok.mp hrings
  exact findWashRings_not_ok search draws environment arguments graph query rings hfound

def triangleTrades : TradeTable where
  columns := ["base_account", "counter_account", "base_amount", "ledger_close_time"]
  rows := [⟨some "a", some "b", some 1, some 0⟩, ⟨some "b", some "c", some 2, some 60⟩,
    ⟨some "c", some "a", some 3, some 120⟩]

def noApproximation : Approximation := ⟨none, none⟩

theorem triangle_not_same :
    (¬SameRings (moduleRings .tarjan ⟨fun _ _ => [], fun _ _ => 0⟩ noApproximation noApproximation
        triangleTrades ⟨3, 10, 0⟩)
      (engineRings ⟨50000, 1000000, true⟩ .inOrder triangleTrades ⟨3, 10, 0⟩)) ∧
    moduleRings .tarjan ⟨fun _ _ => [], fun _ _ => 0⟩ noApproximation noApproximation
      triangleTrades ⟨3, 10, 0⟩ = .error (.nameError "cache_key") ∧
    engineRings ⟨50000, 1000000, true⟩ .inOrder triangleTrades ⟨3, 10, 0⟩ =
      .ok [⟨["a", "b", "c"], 6, 1, 1, 0, false⟩] := by
  have hmodule : moduleRings .tarjan ⟨fun _ _ => [], fun _ _ => 0⟩ noApproximation noApproximation
      triangleTrades ⟨3, 10, 0⟩ = .error (.nameError "cache_key") := by decide +kernel
  refine ⟨?_, hmodule, by decide +kernel⟩
  rintro ⟨rings, -, hrings, -, -⟩
  rw [hmodule] at hrings
  cases hrings

end TransactionGraph
