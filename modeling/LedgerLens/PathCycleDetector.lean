import LedgerLens.Graph.SimpleCycles
import LedgerLens.Graph.TarjanScc
import LedgerLens.SmallestRange
import Mathlib.Algebra.Order.Field.Rat
import Mathlib.Data.List.Sort

/-!
# Path-payment cycles

`detection/path_cycle_detector.py` over the account graph of `add_path_payment_edges`. Times are in
seconds. The library that finds components and simple cycles is a parameter, and so is the clock.
-/
namespace PathCycleDetector

open SimpleCycles SmallestRange StrongComponents

/-- A row of the frame of payments. Columns and cells that are missing are `none`. -/
structure PaymentRow where
  sourceAccount : String
  destinationAccount : String
  sourceAsset : Option String
  destinationAsset : Option String
  sourceAmount : Option ℚ
  timestamp : Option ℚ
  transactionHash : Option String
  deriving DecidableEq, Repr

structure PathHop where
  amountXlm : ℚ
  sourceAsset : String
  destinationAsset : String
  timestamp : Option ℚ
  transactionHash : Option String
  deriving DecidableEq, Inhabited, Repr

structure EdgeData where
  totalVolume : ℚ
  paymentCount : ℕ
  pathPayments : List PathHop
  deriving DecidableEq, Repr

structure PaymentGraph where
  nodes : List String
  edge : String × String → Option EdgeData
  nodes_nodup : nodes.Nodup
  ends : ∀ e, (edge e).isSome → e.1 ∈ nodes ∧ e.2 ∈ nodes

namespace PaymentGraph

def Edge (graph : PaymentGraph) (u v : String) : Prop := (graph.edge (u, v)).isSome

instance (graph : PaymentGraph) (u v : String) : Decidable (graph.Edge u v) :=
  inferInstanceAs (Decidable (_ = true))

def payments (graph : PaymentGraph) (e : String × String) : List PathHop :=
  ((graph.edge e).map EdgeData.pathPayments).getD []

def empty : PaymentGraph where
  nodes := []
  edge _ := none
  nodes_nodup := .nil
  ends _ h := absurd h Bool.false_ne_true

def addNode (nodes : List String) (node : String) : List String :=
  if node ∈ nodes then nodes else nodes ++ [node]

theorem mem_addNode {nodes : List String} {node a : String} :
    a ∈ addNode nodes node ↔ a ∈ nodes ∨ a = node := by
  rw [addNode]
  split_ifs with h
  · exact ⟨.inl, fun ha => ha.elim id fun heq => heq ▸ h⟩
  · rw [List.mem_append, List.mem_singleton]

theorem addNode_nodup {nodes : List String} {node : String} (h : nodes.Nodup) :
    (addNode nodes node).Nodup := by
  rw [addNode]
  split_ifs with hmem
  · exact h
  · exact List.nodup_append.mpr ⟨h, List.nodup_singleton _, fun a ha b hb hab =>
      hmem (List.mem_singleton.mp hb ▸ hab ▸ ha)⟩

def setEdge (graph : PaymentGraph) (source destination : String) (data : EdgeData) :
    PaymentGraph where
  nodes := addNode (addNode graph.nodes source) destination
  edge := Function.update graph.edge (source, destination) (some data)
  nodes_nodup := addNode_nodup (addNode_nodup graph.nodes_nodup)
  ends := by
    intro e he
    simp only [mem_addNode]
    by_cases heq : e = (source, destination)
    · rw [heq]
      exact ⟨.inl (.inr rfl), .inr rfl⟩
    · rw [Function.update_of_ne heq] at he
      exact ⟨.inl (.inl (graph.ends e he).1), .inl (.inl (graph.ends e he).2)⟩

theorem payments_setEdge_self (graph : PaymentGraph) (source destination : String)
    (data : EdgeData) :
    (graph.setEdge source destination data).payments (source, destination) = data.pathPayments := by
  have hedge : (graph.setEdge source destination data).edge (source, destination) = some data :=
    Function.update_self _ _ _
  rw [payments, hedge]
  rfl

theorem payments_setEdge_of_ne (graph : PaymentGraph) {source destination : String}
    (data : EdgeData) {e : String × String} (hne : e ≠ (source, destination)) :
    (graph.setEdge source destination data).payments e = graph.payments e := by
  have hedge : (graph.setEdge source destination data).edge e = graph.edge e :=
    Function.update_of_ne hne _ _
  rw [payments, payments, hedge]

def subgraph (graph : PaymentGraph) (component : List String) : PaymentGraph where
  nodes := graph.nodes.filter (· ∈ component)
  edge e := if e.1 ∈ component ∧ e.2 ∈ component then graph.edge e else none
  nodes_nodup := graph.nodes_nodup.filter _
  ends := by
    intro e he
    split_ifs at he with hmem
    · obtain ⟨hsource, hdestination⟩ := graph.ends e he
      exact ⟨List.mem_filter.mpr ⟨hsource, decide_eq_true hmem.1⟩,
        List.mem_filter.mpr ⟨hdestination, decide_eq_true hmem.2⟩⟩
    · cases he

theorem edge_subgraph {graph : PaymentGraph} {component : List String} {u v : String} :
    (graph.subgraph component).Edge u v ↔ (u ∈ component ∧ v ∈ component) ∧ graph.Edge u v := by
  by_cases hmem : u ∈ component ∧ v ∈ component
  · have hedge : (graph.subgraph component).edge (u, v) = graph.edge (u, v) := if_pos hmem
    rw [Edge, Edge, hedge, and_iff_right hmem]
  · have hedge : (graph.subgraph component).edge (u, v) = none := if_neg hmem
    rw [Edge, hedge]
    exact iff_of_false Bool.false_ne_true fun h => hmem h.1

theorem payments_subgraph {graph : PaymentGraph} {component : List String} {e : String × String}
    (hsource : e.1 ∈ component) (hdestination : e.2 ∈ component) :
    (graph.subgraph component).payments e = graph.payments e := by
  have hedge : (graph.subgraph component).edge e = graph.edge e := if_pos ⟨hsource, hdestination⟩
  rw [payments, payments, hedge]

theorem simpleCycle_subgraph {graph : PaymentGraph} {component cycle : List String} :
    SimpleCycle (graph.subgraph component).Edge cycle ↔
      SimpleCycle graph.Edge cycle ∧ ∀ v ∈ cycle, v ∈ component := by
  constructor
  · intro h
    refine ⟨h.mono fun u v hedge => (edge_subgraph.mp hedge).2, fun v hv => ?_⟩
    obtain ⟨w, hedge⟩ := h.exists_edge hv
    exact (edge_subgraph.mp hedge).1.1
  · rintro ⟨h, hin⟩
    refine ⟨h.nodup, chain_iff.mpr fun e he => edge_subgraph.mpr ⟨?_, chain_iff.mp h.chain e he⟩⟩
    obtain ⟨hfirst, hsecond⟩ := mem_of_mem_cycleEdges he
    exact ⟨hin _ hfirst, hin _ hsecond⟩

end PaymentGraph

def PaymentRow.hop (row : PaymentRow) : PathHop where
  amountXlm := row.sourceAmount.getD 0
  sourceAsset := row.sourceAsset.getD ""
  destinationAsset := row.destinationAsset.getD ""
  timestamp := row.timestamp
  transactionHash := row.transactionHash

def addPathPaymentEdge (graph : PaymentGraph) (row : PaymentRow) : PaymentGraph :=
  if row.sourceAccount = "" ∨ row.destinationAccount = "" then graph
  else graph.setEdge row.sourceAccount row.destinationAccount <|
    match graph.edge (row.sourceAccount, row.destinationAccount) with
    | some edge =>
      { totalVolume := edge.totalVolume + row.hop.amountXlm
        paymentCount := edge.paymentCount + 1
        pathPayments := edge.pathPayments ++ [row.hop] }
    | none => ⟨row.hop.amountXlm, 1, [row.hop]⟩

def addPathPaymentEdges (graph : PaymentGraph) (rows : List PaymentRow) : PaymentGraph :=
  rows.foldl addPathPaymentEdge graph

def buildPathPaymentGraph (rows : List PaymentRow) : PaymentGraph :=
  addPathPaymentEdges .empty rows

def PaymentRow.Over (row : PaymentRow) (e : String × String) : Prop :=
  (row.sourceAccount, row.destinationAccount) = e ∧
    row.sourceAccount ≠ "" ∧ row.destinationAccount ≠ ""

instance (row : PaymentRow) (e : String × String) : Decidable (row.Over e) :=
  inferInstanceAs (Decidable (_ ∧ _))

theorem payments_addPathPaymentEdge (graph : PaymentGraph) (row : PaymentRow)
    (e : String × String) : (addPathPaymentEdge graph row).payments e =
      graph.payments e ++ if row.Over e then [row.hop] else [] := by
  rw [addPathPaymentEdge]
  split_ifs with hempty hover hover
  · exact absurd hempty (not_or.mpr hover.2)
  · rw [List.append_nil]
  · obtain ⟨rfl, -⟩ := hover
    rw [PaymentGraph.payments_setEdge_self, PaymentGraph.payments]
    cases graph.edge (row.sourceAccount, row.destinationAccount) <;> rfl
  · have hne : e ≠ (row.sourceAccount, row.destinationAccount) := by
      rintro rfl
      exact hover ⟨rfl, not_or.mp hempty⟩
    rw [PaymentGraph.payments_setEdge_of_ne _ _ hne, List.append_nil]

theorem payments_addPathPaymentEdges (graph : PaymentGraph) (rows : List PaymentRow)
    (e : String × String) : (addPathPaymentEdges graph rows).payments e =
      graph.payments e ++ (rows.filter (·.Over e)).map PaymentRow.hop := by
  induction rows generalizing graph with
  | nil => exact (List.append_nil _).symm
  | cons row rows ih =>
    have hcons : addPathPaymentEdges graph (row :: rows) =
        addPathPaymentEdges (addPathPaymentEdge graph row) rows := rfl
    rw [hcons, ih, payments_addPathPaymentEdge, List.append_assoc, List.filter_cons]
    split_ifs with hover hover' hover'
    · rfl
    · exact absurd (decide_eq_true hover) hover'
    · exact absurd (of_decide_eq_true hover') hover
    · rfl

def withTs (hops : List PathHop) : List (ℚ × PathHop) :=
  (hops.filterMap fun hop => hop.timestamp.map (·, hop)).insertionSort (·.1 ≤ ·.1)

/-- `None` where an edge of the cycle or its payments are missing. -/
def cycleHops (graph : PaymentGraph) (cycle : List String) : Option (List (List PathHop)) :=
  (cycleEdges cycle).mapM fun e =>
    match graph.edge e with
    | none => none
    | some edge => if edge.pathPayments = [] then none else some edge.pathPayments

def timedHops (hops : List (List PathHop)) : List (List (ℚ × PathHop)) :=
  (hops.map withTs).filter (· ≠ [])

/-- Hops without a timestamp do not constrain the span. Their first payment is taken. -/
def untimedPicks (hops : List (List PathHop)) : List PathHop :=
  (hops.filter (withTs · = [])).filterMap List.head?

def chosenPayments (timed : List (List (ℚ × PathHop))) (choice : ℕ → ℕ) : List PathHop :=
  (List.range timed.length).filterMap fun i => (timed[i]?.bind (·[choice i]?)).map Prod.snd

def selectTimedCycleEdges (graph : PaymentGraph) (cycle : List String) (maxTimeWindow : ℚ) :
    Option (List PathHop) :=
  match cycleHops graph cycle with
  | none => none
  | some hops =>
    if timedHops hops = [] then some (untimedPicks hops)
    else match sweep ((timedHops hops).map (·.map Prod.fst)) with
      | none => none
      | some final =>
        match final.bestRange with
        | none => none
        | some range =>
          if maxTimeWindow < range then none
          else some (chosenPayments (timedHops hops) final.bestChoice ++ untimedPicks hops)

structure Query where
  rootAccounts : Option (List String)
  maxCycleLength : ℤ
  maxTimeWindow : ℚ
  minCycleXlm : ℚ
  maxComponentSize : ℤ
  maxCycleSearchSeconds : Option ℚ
  maxCycles : Option ℤ

def Query.default : Query where
  rootAccounts := none
  maxCycleLength := 6
  maxTimeWindow := 24 * 60 * 60
  minCycleXlm := 0
  maxComponentSize := 12
  maxCycleSearchSeconds := some 5
  maxCycles := some 10000

def Query.Touches (query : Query) (accounts : List String) : Prop :=
  ∀ roots ∈ query.rootAccounts, ∃ account ∈ accounts, account ∈ roots

instance (query : Query) (accounts : List String) : Decidable (query.Touches accounts) :=
  inferInstanceAs (Decidable (∀ roots ∈ query.rootAccounts, _))

structure ValueError where
  message : String
  deriving DecidableEq

def Query.check (query : Query) : Except ValueError Unit :=
  if query.maxCycleLength < 2 then .error ⟨"max_cycle_length must be at least 2"⟩
  else if query.maxCycleSearchSeconds.any (· < 0) then
    .error ⟨"max_cycle_search_seconds must be non-negative"⟩
  else if query.maxCycles.any (· < 1) then .error ⟨"max_cycles must be at least 1"⟩
  else .ok ()

structure PathCycle where
  accounts : List String
  cyclePath : List String
  cycleValueXlm : ℚ
  cycleLength : ℕ
  completedInSeconds : ℚ
  assetDiversity : ℕ
  transactionHashes : List String
  deriving DecidableEq

/-- The time from the first to the last payment, of payments that have one. -/
def completedInSeconds (selected : List PathHop) : ℚ :=
  match (selected.filterMap PathHop.timestamp).max?,
      (selected.filterMap PathHop.timestamp).min? with
  | some last, some first => last - first
  | _, _ => 0

def pathCycle (nodeCycle : List String) (selected : List PathHop) (cycleValueXlm : ℚ) :
    PathCycle where
  accounts := nodeCycle
  cyclePath := selected.map PathHop.sourceAsset ++ (selected.map PathHop.sourceAsset).take 1
  cycleValueXlm := cycleValueXlm
  cycleLength := nodeCycle.length
  completedInSeconds := completedInSeconds selected
  assetDiversity := ((selected.map PathHop.sourceAsset ++
    selected.map PathHop.destinationAsset).filter (· ≠ "")).dedup.length
  transactionHashes := (selected.filterMap PathHop.transactionHash).filter (· ≠ "")

def examine (query : Query) (subgraph : PaymentGraph) (nodeCycle : List String) :
    Option PathCycle :=
  if nodeCycle.length < 2 ∨ ¬ query.Touches nodeCycle then none
  else match selectTimedCycleEdges subgraph nodeCycle query.maxTimeWindow with
    | none => none
    | some selected =>
      let cycleValueXlm := (selected.map PathHop.amountXlm).min?.getD 0
      if cycleValueXlm < query.minCycleXlm then none
      else some (pathCycle nodeCycle selected cycleValueXlm)

structure Search where
  cycles : List PathCycle
  seen : List (Finset String × ℕ)
  enumeratedCycles : ℕ
  budgetExhausted : Bool
  /-- How often the clock was read since the start. -/
  looks : ℕ

def Search.start : Search := ⟨[], [], 0, false, 0⟩

/-- The clock is read where there is a limit on the time. -/
def Search.look (s : Search) (query : Query) : Search :=
  { s with looks := if query.maxCycleSearchSeconds.isSome then s.looks + 1 else s.looks }

/-- The two budgets, `late` being the comparison of the time. -/
def Search.outOfBudget (s : Search) (query : Query) (late : ℚ → Bool) : Bool :=
  query.maxCycleSearchSeconds.any late || query.maxCycles.any (· ≤ (s.enumeratedCycles : ℤ))

def Search.visit (s : Search) (query : Query) (subgraph : PaymentGraph) (nodeCycle : List String) :
    Search :=
  match examine query subgraph nodeCycle with
  | none => { s with enumeratedCycles := s.enumeratedCycles + 1 }
  | some cycle =>
    if (nodeCycle.toFinset, nodeCycle.length) ∈ s.seen then
      { s with enumeratedCycles := s.enumeratedCycles + 1 }
    else
      { s with
        enumeratedCycles := s.enumeratedCycles + 1
        seen := (nodeCycle.toFinset, nodeCycle.length) :: s.seen
        cycles := s.cycles ++ [cycle] }

/-- `clock 0` is the time of the start. -/
def elapsed (clock : ℕ → ℚ) (s : Search) : ℚ := clock (s.looks + 1) - clock 0

def searchCycles (clock : ℕ → ℚ) (query : Query) (subgraph : PaymentGraph) :
    List (List String) → Search → Search
  | [], s => s
  | nodeCycle :: rest, s =>
    if s.outOfBudget query (· < elapsed clock s) then
      { s.look query with budgetExhausted := true }
    else searchCycles clock query subgraph rest ((s.look query).visit query subgraph nodeCycle)

structure Networkx where
  stronglyConnectedComponents : PaymentGraph → List (List String)
  simpleCycles : PaymentGraph → ℕ → List (List String)
  components : ∀ graph, Components graph.Edge (stronglyConnectedComponents graph)
  every_node : ∀ graph, ∀ v ∈ graph.nodes, v ∈ (stronglyConnectedComponents graph).flatten
  cycles_sound : ∀ graph bound, ∀ cycle ∈ simpleCycles graph bound,
    cycle ≠ [] ∧ SimpleCycle graph.Edge cycle ∧ cycle.length ≤ bound
  /-- A cycle is listed from one of its nodes. -/
  cycles_complete : ∀ graph bound cycle, cycle ≠ [] → SimpleCycle graph.Edge cycle →
    cycle.length ≤ bound → ∃ listed ∈ simpleCycles graph bound, listed ~r cycle

def listedCycles (graph : PaymentGraph) (bound : ℕ) : List (List String) :=
  (graph.nodes.sublists'.flatMap List.permutations').filter fun cycle =>
    cycle ≠ [] ∧ cycle.length ≤ bound ∧ (∀ e ∈ cycleEdges cycle, graph.Edge e.1 e.2) ∧
      ∀ first ∈ cycle.head?, ∀ v ∈ cycle, graph.nodes.idxOf first ≤ graph.nodes.idxOf v

theorem mem_listedCycles {graph : PaymentGraph} {bound : ℕ} {cycle : List String} :
    cycle ∈ listedCycles graph bound ↔ (cycle ≠ [] ∧ SimpleCycle graph.Edge cycle ∧
      cycle.length ≤ bound) ∧
        ∀ first ∈ cycle.head?, ∀ v ∈ cycle, graph.nodes.idxOf first ≤ graph.nodes.idxOf v := by
  rw [listedCycles, List.mem_filter, decide_eq_true_iff, List.mem_flatMap]
  constructor
  · rintro ⟨⟨nodes, hnodes, hcycle⟩, hne, hlength, hedges, hfirst⟩
    have hsub := List.mem_sublists'.mp hnodes
    have hperm := List.mem_permutations'.mp hcycle
    have hnodup := hperm.nodup_iff.mpr (hsub.nodup graph.nodes_nodup)
    exact ⟨⟨hne, ⟨hnodup, chain_iff.mpr hedges⟩, hlength⟩, hfirst⟩
  · rintro ⟨⟨hne, hcycle, hlength⟩, hfirst⟩
    refine ⟨?_, hne, hlength, chain_iff.mp hcycle.chain, hfirst⟩
    have hmem : cycle ⊆ graph.nodes := by
      intro v hv
      obtain ⟨w, hedge⟩ := hcycle.exists_edge hv
      exact (graph.ends (v, w) hedge).1
    obtain ⟨nodes, hperm, hsub⟩ := List.subperm_of_subset hcycle.nodup hmem
    exact ⟨nodes, List.mem_sublists'.mpr hsub, List.mem_permutations'.mpr hperm.symm⟩

theorem exists_listedCycle {graph : PaymentGraph} {bound : ℕ} {cycle : List String}
    (hne : cycle ≠ []) (hcycle : SimpleCycle graph.Edge cycle) (hlength : cycle.length ≤ bound) :
    ∃ listed ∈ listedCycles graph bound, listed ~r cycle := by
  obtain ⟨first, hfirst, hmin⟩ := Finset.exists_min_image cycle.toFinset graph.nodes.idxOf
    (List.toFinset_nonempty_iff cycle |>.mpr hne)
  obtain ⟨t, hrotated, hlisted⟩ := hcycle.rotate_to (List.mem_toFinset.mp hfirst)
  refine ⟨first :: t, mem_listedCycles.mpr ⟨⟨List.cons_ne_nil _ _, hlisted, ?_⟩, ?_⟩, hrotated⟩
  · exact hrotated.perm.length_eq.trans_le hlength
  · intro a ha v hv
    obtain rfl := Option.some.inj ha
    exact hmin v (List.mem_toFinset.mpr (hrotated.perm.mem_iff.mp hv))

def PaymentGraph.adjacency (graph : PaymentGraph) : List (String × List String) :=
  graph.nodes.map fun v => (v, graph.nodes.filter (graph.Edge v))

theorem PaymentGraph.adjacency_keys (graph : PaymentGraph) :
    graph.adjacency.map Prod.fst = graph.nodes := by
  rw [adjacency, List.map_map]
  exact List.map_id _

theorem PaymentGraph.edge_adjacency (graph : PaymentGraph) :
    TarjanScc.Edge (TarjanScc.neighbours graph.adjacency) = graph.Edge := by
  ext u v
  have hkeys : (graph.adjacency.map Prod.fst).Nodup := graph.adjacency_keys ▸ graph.nodes_nodup
  rw [TarjanScc.Edge, TarjanScc.mem_neighbours_iff hkeys]
  constructor
  · rintro ⟨targets, hmem, hv⟩
    obtain ⟨w, -, heq⟩ := List.mem_map.mp hmem
    obtain ⟨rfl, rfl⟩ := Prod.mk.inj heq
    exact of_decide_eq_true (List.mem_filter.mp hv).2
  · intro hedge
    obtain ⟨hu, hv⟩ := graph.ends (u, v) hedge
    exact ⟨_, List.mem_map_of_mem hu, List.mem_filter.mpr ⟨hv, decide_eq_true hedge⟩⟩

/-- Components by Tarjan's algorithm, and cycles by trying all orders of the nodes. -/
def Networkx.exhaustive : Networkx where
  stronglyConnectedComponents graph := TarjanScc.run graph.adjacency
  simpleCycles := listedCycles
  components graph := graph.edge_adjacency ▸ TarjanScc.run_components graph.adjacency
  every_node graph _ hv := TarjanScc.mem_run.mpr (.inl (graph.adjacency_keys.symm ▸ hv))
  cycles_sound _ _ _ hcycle := (mem_listedCycles.mp hcycle).1
  cycles_complete _ _ _ := exists_listedCycle

/-- Components without a cycle to report are left out, and those that are too large. -/
def Query.Skips (query : Query) (component : List String) : Prop :=
  component.length < 2 ∨ ¬ query.Touches component ∨ query.maxComponentSize < component.length

instance (query : Query) (component : List String) : Decidable (query.Skips component) :=
  inferInstanceAs (Decidable (_ ∨ _))

def searchComponents (nx : Networkx) (clock : ℕ → ℚ) (query : Query) (graph : PaymentGraph) :
    List (List String) → Search → Search
  | [], s => s
  | component :: rest, s =>
    if s.outOfBudget query (· ≤ elapsed clock s) then
      { s.look query with budgetExhausted := true }
    else if query.Skips component then
      searchComponents nx clock query graph rest (s.look query)
    else
      let searched := searchCycles clock query (graph.subgraph component)
        (nx.simpleCycles (graph.subgraph component) query.maxCycleLength.toNat) (s.look query)
      if searched.budgetExhausted then searched
      else searchComponents nx clock query graph rest searched

def search (nx : Networkx) (clock : ℕ → ℚ) (query : Query) (graph : PaymentGraph) :
    Except ValueError Search := do
  query.check
  return searchComponents nx clock query graph (nx.stronglyConnectedComponents graph) .start

def detectPathPaymentCycles (nx : Networkx) (clock : ℕ → ℚ) (query : Query)
    (graph : PaymentGraph) : Except ValueError (List PathCycle) := do
  let s ← search nx clock query graph
  return s.cycles.insertionSort fun a b => b.cycleValueXlm ≤ a.cycleValueXlm

end PathCycleDetector
