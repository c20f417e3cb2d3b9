import LedgerLens.TimedSelection

/-!
# Hops of a reported cycle

A row of `detect_path_payment_cycles` lists the assets of the selected payments. These are those of
the edges with times, and then those of the others, whatever the order of the edges.
-/
namespace CycleAlignment

open PathCycleCompleteness PathCycleDetector SimpleCycles TimedSelection

def Aligned (graph : PaymentGraph) (cycle : List String) (selected : List PathHop) : Prop :=
  List.Forall₂ (fun e hop => hop ∈ graph.payments e) (cycleEdges cycle) selected

/-- No edge without times comes before one with times. -/
def TimedFirst (graph : PaymentGraph) (cycle : List String) : Prop :=
  (cycleEdges cycle).Pairwise fun e e' => HasTime (graph.payments e') → HasTime (graph.payments e)

/-- The source assets of the payments, with the first one at the end again. -/
def assetsOf (selected : List PathHop) : List String :=
  selected.map PathHop.sourceAsset ++ (selected.map PathHop.sourceAsset).take 1

section

variable {hops : List (List PathHop)} {choice firsts : List PathHop}

theorem timedEdges_append_untimedEdges
    (h : hops.Pairwise fun p q => HasTime q → HasTime p) :
    timedEdges hops ++ untimedEdges hops = hops := by
  induction hops with
  | nil => rfl
  | cons p hops ih =>
    obtain ⟨hp, hops'⟩ := List.pairwise_cons.mp h
    by_cases htime : HasTime p
    · rw [timedEdges, untimedEdges, List.filter_cons_of_pos (by simpa using htime),
        List.filter_cons_of_neg (by simpa using htime), List.cons_append]
      exact congrArg _ (ih hops')
    · have hnone : ∀ q ∈ p :: hops, ¬ HasTime q :=
        List.forall_mem_cons.mpr ⟨htime, fun q hq hq' => htime (hp q hq hq')⟩
      have htimed : timedEdges (p :: hops) = [] :=
        List.filter_eq_nil_iff.mpr fun q hq => by simpa using hnone q hq
      have huntimed : untimedEdges (p :: hops) = p :: hops :=
        List.filter_eq_self.mpr fun q hq => by simpa using hnone q hq
      rw [htimed, huntimed, List.nil_append]

theorem aligned_append_iff (hchoice : TimedChoice hops choice)
    (hfirsts : List.Forall₂ (fun payments hop => payments.head? = some hop)
      (untimedEdges hops) firsts) :
    List.Forall₂ (fun payments hop => hop ∈ payments) hops (choice ++ firsts) ↔
      hops.Pairwise fun p q => HasTime q → HasTime p := by
  constructor
  · intro h
    clear hfirsts
    rw [TimedChoice] at hchoice
    induction hops generalizing choice with
    | nil => exact .nil
    | cons p hops ih =>
      by_cases htime : HasTime p
      · rw [timedEdges, List.filter_cons_of_pos (by simpa using htime)] at hchoice
        cases hchoice with
        | cons hhead hrest =>
          cases h with
          | cons _ h => exact .cons (fun _ _ _ => htime) (ih hrest h)
      · rw [timedEdges, List.filter_cons_of_neg (by simpa using htime)] at hchoice
        have hnone : ∀ q ∈ hops, ¬ HasTime q := by
          intro q hq hq'
          have hmem : q ∈ hops.filter (HasTime ·) := List.mem_filter.mpr ⟨hq, decide_eq_true hq'⟩
          generalize hops.filter (HasTime ·) = edges at hchoice hmem
          cases hchoice with
          | nil => cases hmem
          | cons hhead _ =>
            cases h with
            | cons hp _ => exact htime ⟨_, hp, hhead.2⟩
        refine List.pairwise_cons.mpr ⟨fun q hq hq' => absurd hq' (hnone q hq), ?_⟩
        exact List.pairwise_of_forall_mem_list fun q _ q' hq' h' => absurd h' (hnone q' hq')
  · intro h
    rw [← timedEdges_append_untimedEdges h]
    refine List.rel_append (hchoice.imp fun _ _ hhop => hhop.1) ?_
    exact hfirsts.imp fun _ _ hhop => List.mem_of_head? hhop

end

variable {nx : Networkx} {clock : ℕ → ℚ} {query : Query} {graph : PaymentGraph}
  {component cycle : List String} {s : Search} {row : PathCycle} {P : PathCycle → Prop}

theorem forall_mem_visit (h : ∀ row ∈ s.cycles, P row)
    (hcycle : ∀ row ∈ examine query graph cycle, P row) :
    ∀ row ∈ (s.visit query graph cycle).cycles, P row := by
  rw [Search.visit]
  cases hexamine : examine query graph cycle with
  | none => exact h
  | some row =>
    simp only
    split_ifs
    · exact h
    · exact List.forall_mem_append.mpr
        ⟨h, List.forall_mem_singleton.mpr (hcycle row hexamine)⟩

theorem forall_mem_searchCycles {cycles : List (List String)} (h : ∀ row ∈ s.cycles, P row)
    (hcycles : ∀ cycle ∈ cycles, ∀ row ∈ examine query graph cycle, P row) :
    ∀ row ∈ (searchCycles clock query graph cycles s).cycles, P row := by
  induction cycles generalizing s with
  | nil => exact h
  | cons cycle cycles ih =>
    obtain ⟨hcycle, hcycles⟩ := List.forall_mem_cons.mp hcycles
    rw [searchCycles]
    split_ifs
    · exact h
    · exact ih (forall_mem_visit (s := s.look query) h hcycle) hcycles

/-- What holds of every row that an examination gives holds of every row of the search, also of one
that a budget ends. -/
theorem forall_mem_searchComponents {components : List (List String)}
    (h : ∀ row ∈ s.cycles, P row)
    (hcomponents : ∀ component ∈ components, ∀ cycle ∈ nx.simpleCycles (graph.subgraph component)
      query.maxCycleLength.toNat, ∀ row ∈ examine query (graph.subgraph component) cycle, P row) :
    ∀ row ∈ (searchComponents nx clock query graph components s).cycles, P row := by
  induction components generalizing s with
  | nil => exact h
  | cons component components ih =>
    obtain ⟨hcomponent, hcomponents⟩ := List.forall_mem_cons.mp hcomponents
    have hsearched : ∀ row ∈ (searchCycles clock query (graph.subgraph component)
        (nx.simpleCycles (graph.subgraph component) query.maxCycleLength.toNat)
          (s.look query)).cycles, P row := forall_mem_searchCycles (s := s.look query) h hcomponent
    rw [searchComponents]
    split_ifs
    · exact h
    · exact ih (s := s.look query) h hcomponents
    · simp only
      split_ifs
      · exact hsearched
      · exact ih hsearched hcomponents

theorem selectTimedCycleEdges_subgraph {window : ℚ} (hin : ∀ v ∈ cycle, v ∈ component) :
    selectTimedCycleEdges (graph.subgraph component) cycle window =
      selectTimedCycleEdges graph cycle window := by
  have hhops : cycleHops (graph.subgraph component) cycle = cycleHops graph cycle := by
    ext hops
    rw [cycleHops_eq_some, cycleHops_eq_some, hopsOf_subgraph hin]
  rw [selectTimedCycleEdges, selectTimedCycleEdges, hhops]

theorem selected_of_examine (h : examine query graph cycle = some row) :
    ∃ selected, selectTimedCycleEdges graph cycle query.maxTimeWindow = some selected ∧
      row.cyclePath = assetsOf selected := by
  rw [examine] at h
  split_ifs at h
  cases hselected : selectTimedCycleEdges graph cycle query.maxTimeWindow with
  | none =>
    rw [hselected] at h
    cases h
  | some selected =>
    rw [hselected] at h
    simp only at h
    split_ifs at h
    obtain rfl := Option.some.inj h
    exact ⟨selected, rfl, rfl⟩

def MadeOf (query : Query) (graph : PaymentGraph) (row : PathCycle) (selected : List PathHop) :
    Prop :=
  selectTimedCycleEdges graph row.accounts query.maxTimeWindow = some selected ∧
    row.cyclePath = assetsOf selected

theorem exists_madeOf {found : List PathCycle}
    (h : detectPathPaymentCycles nx clock query graph = .ok found) :
    ∀ row ∈ found, ∃ selected, MadeOf query graph row selected := by
  rw [detectPathPaymentCycles, search] at h
  cases hcheck : query.check with
  | error e =>
    rw [hcheck] at h
    cases h
  | ok =>
    rw [hcheck] at h
    obtain rfl := Except.ok.inj h
    intro row hrow
    refine forall_mem_searchComponents (P := fun row => ∃ selected, MadeOf query graph row selected)
      (fun _ h => absurd h List.not_mem_nil) (fun component _ cycle hcycle row hexamine => ?_)
      row ((List.mem_insertionSort _).mp hrow)
    obtain ⟨-, hsimple, -⟩ := nx.cycles_sound _ _ _ hcycle
    obtain ⟨-, hin⟩ := PaymentGraph.simpleCycle_subgraph.mp hsimple
    obtain ⟨selected, hselected, hpath⟩ := selected_of_examine hexamine
    rw [selectTimedCycleEdges_subgraph hin] at hselected
    exact ⟨selected, accounts_of_examine hexamine ▸ hselected, hpath⟩

theorem MadeOf.aligned_iff {selected : List PathHop} (h : MadeOf query graph row selected) :
    Aligned graph row.accounts selected ↔ TimedFirst graph row.accounts := by
  have hselected := h.1
  cases hhops : cycleHops graph row.accounts with
  | none =>
    rw [selectTimedCycleEdges, hhops] at hselected
    cases hselected
  | some hops =>
    obtain ⟨choice, firsts, rfl, htightest, hfirsts⟩ := (select_spec hhops _).2 _ hselected
    obtain ⟨rfl, -⟩ := cycleHops_eq_some.mp hhops
    have hiff := aligned_append_iff htightest.timed hfirsts
    rwa [hopsOf, List.forall₂_map_left_iff, List.pairwise_map] at hiff

/-- Of every reported cycle the hops, and so the assets of its path, are those of its edges in their
order exactly where no edge without times comes before one with times. -/
theorem aligned_iff_timedFirst {found : List PathCycle}
    (h : detectPathPaymentCycles nx clock query graph = .ok found) (hrow : row ∈ found) :
    ∃ selected, MadeOf query graph row selected ∧
      (Aligned graph row.accounts selected ↔ TimedFirst graph row.accounts) := by
  obtain ⟨selected, hmade⟩ := exists_madeOf h row hrow
  exact ⟨selected, hmade, hmade.aligned_iff⟩

theorem aligned_iff_timedFirst_ring :
    ∃ found, detectPathPaymentCycles .exhaustive (fun _ => 0) floorTen ring = .ok found ∧
      ∃ row ∈ found, ∃ selected, MadeOf floorTen ring row selected ∧
        (Aligned ring row.accounts selected ↔ TimedFirst ring row.accounts) := by
  have hfound : detectPathPaymentCycles .exhaustive (fun _ => 0) floorTen ring =
      .ok [⟨["A", "B"], ["XLM", "XLM", "XLM"], 100, 2, 60, 2, ["tx", "tx"]⟩] := by decide +kernel
  exact ⟨_, hfound, _, List.mem_singleton_self _,
    aligned_iff_timedFirst hfound (List.mem_singleton_self _)⟩

/-- `A` pays `B` at an unknown time in one asset, and `B` pays `A` in another one. -/
def mixedRing : PaymentGraph := buildPathPaymentGraph
  [⟨"A", "B", some "XLM", some "USDC", some 100, none, some "tx1"⟩,
    ⟨"B", "A", some "USDC", some "XLM", some 100, some 0, some "tx2"⟩]

/-- The path of the cycle from `A` begins with the asset that `B` pays. -/
theorem mixedRing_misaligned :
    ∃ found, detectPathPaymentCycles .exhaustive (fun _ => 0) Query.default mixedRing = .ok found ∧
      ∃ row ∈ found, row.accounts = ["A", "B"] ∧ row.cyclePath = ["USDC", "XLM", "USDC"] ∧
        ∀ selected, MadeOf Query.default mixedRing row selected →
          ¬ Aligned mixedRing row.accounts selected := by
  refine ⟨[⟨["A", "B"], ["USDC", "XLM", "USDC"], 100, 2, 0, 2, ["tx2", "tx1"]⟩],
    by decide +kernel, _, List.mem_singleton_self _, rfl, rfl, fun selected hmade => ?_⟩
  rw [hmade.aligned_iff, TimedFirst]
  decide +kernel

end CycleAlignment
