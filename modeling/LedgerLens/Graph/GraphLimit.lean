import LedgerLens.FallibleRuns
import LedgerLens.Graph.AdjacencyPaths

/-!
# The limit on the accounts of a graph

`TradeGraph.add_trade` indexes the accounts of a trade and only then looks at how many there are.
Where that raises, the accounts stay.
-/
namespace GraphLimit

open AdjacencyPaths FallibleRuns RingMetrics TradeGraph

inductive Call where
  | addTrade (trade : Trade)
  | findWashRings (query : RingQuery)

/-- The object after a call, whether it returns or raises. A sharded graph searches by a method of
its own, and `add_trade` raises no more on it. -/
def afterCall (limits : Limits) (sparse : SparseMatrices) (engine : Engine) : Call → Engine
  | .addTrade trade => afterTrade limits engine trade
  | .findWashRings query =>
    if engine.sharded then engine
    else match engine.findWashRings limits sparse query with
      | .ok (_, engine) => engine
      | .error _ => engine

def afterCalls (limits : Limits) (sparse : SparseMatrices) (calls : List Call) : Engine :=
  calls.foldl (afterCall limits sparse) Engine.new

/-- The accounts of a trade that `add_trade` does not skip. -/
def accountsOf (trade : Trade) : Option (String × String) :=
  match trade.baseAccount, trade.counterAccount with
  | some base, some counter => if base = "" ∨ counter = "" then none else some (base, counter)
  | _, _ => none

def Known (engine : Engine) (trade : Trade) : Prop :=
  ∀ accounts ∈ accountsOf trade,
    accounts.1 ∈ engine.graph.index.accounts ∧ accounts.2 ∈ engine.graph.index.accounts

def named (calls : List Call) : List String :=
  calls.flatMap fun
    | .addTrade trade => (accountsOf trade).elim [] fun accounts => [accounts.1, accounts.2]
    | .findWashRings _ => []

/-- The trade is refused for the number of accounts. -/
def Raises (limits : Limits) (engine : Engine) (trade : Trade) : Prop :=
  ∃ nodes maxGraphNodes,
    engine.addTrade limits trade = .error (.graphTooLarge nodes maxGraphNodes)

/-- Every call of the sequence that raises leaves the object as it was. -/
def Atomic (limits : Limits) (sparse : SparseMatrices) (calls : List Call) : Prop :=
  ∀ before trade rest, calls = before ++ .addTrade trade :: rest →
    Raises limits (afterCalls limits sparse before) trade →
      afterTrade limits (afterCalls limits sparse before) trade = afterCalls limits sparse before

section

variable {limits : Limits} {sparse : SparseMatrices} {engine : Engine} {trade : Trade}
  {index : NodeIndex} {graph : Graph} {base counter : String}

theorem add_of_mem (h : base ∈ index.accounts) : index.add base = index := dif_pos h

theorem register_eq_iff : register graph base counter = graph ↔
    base ∈ graph.index.accounts ∧ counter ∈ graph.index.accounts := by
  constructor
  · intro h
    have hindex : (graph.index.add base).add counter = graph.index := congrArg Graph.index h
    rw [← hindex]
    simp only [NodeIndex.mem_add]
    exact ⟨.inl (.inr trivial), .inr trivial⟩
  · rintro ⟨hbase, hcounter⟩
    obtain ⟨index, edges, hkeys, hindexed⟩ := graph
    have hindex : (index.add base).add counter = index := by
      rw [add_of_mem hbase, add_of_mem hcounter]
    simp only [register, hindex]

/-- The accounts would be too many, and the graph may not be sharded. -/
def Refuses (limits : Limits) (engine : Engine) (base counter : String) : Prop :=
  ¬ engine.sharded ∧ limits.maxGraphNodes < ((engine.graph.index.add base).add counter).size ∧
    ¬ limits.shardEnabled

theorem addTrade_skipped (h : accountsOf trade = none) :
    engine.addTrade limits trade = .ok engine := by
  obtain ⟨baseAccount, counterAccount, amount, time⟩ := trade
  cases baseAccount with
  | none => rfl
  | some base =>
    cases counterAccount with
    | none => rfl
    | some counter =>
      by_cases hempty : base = "" ∨ counter = ""
      · simp only [Engine.addTrade, if_pos hempty]
      · simp only [accountsOf, if_neg hempty] at h
        cases h

theorem accountsOf_eq_some (h : accountsOf trade = some (base, counter)) :
    trade.baseAccount = some base ∧ trade.counterAccount = some counter ∧
      ¬ (base = "" ∨ counter = "") := by
  obtain ⟨baseAccount, counterAccount, amount, time⟩ := trade
  cases baseAccount with
  | none => cases h
  | some base' =>
    cases counterAccount with
    | none => cases h
    | some counter' =>
      simp only [accountsOf] at h
      split_ifs at h with hempty
      obtain ⟨rfl, rfl⟩ := Prod.mk.inj (Option.some.inj h)
      exact ⟨rfl, rfl, hempty⟩

theorem addTrade_refused (h : accountsOf trade = some (base, counter))
    (hrefuses : Refuses limits engine base counter) :
    engine.addTrade limits trade = .error (.graphTooLarge
        ((engine.graph.index.add base).add counter).size limits.maxGraphNodes) ∧
      afterTrade limits engine trade =
        { engine with graph := register engine.graph base counter } := by
  obtain ⟨hbase, hcounter, hnonempty⟩ := accountsOf_eq_some h
  have hraise : engine.addTrade limits trade = .error (.graphTooLarge
      ((engine.graph.index.add base).add counter).size limits.maxGraphNodes) := by
    simp only [Engine.addTrade, hbase, hcounter, if_neg hnonempty]
    exact if_pos hrefuses
  refine ⟨hraise, ?_⟩
  simp only [afterTrade, hraise, hbase, hcounter]

theorem addTrade_accepted (h : accountsOf trade = some (base, counter))
    (haccepts : ¬ Refuses limits engine base counter) :
    ∃ engine', engine.addTrade limits trade = .ok engine' ∧
      engine'.graph.index = (engine.graph.index.add base).add counter ∧
      (¬ engine.sharded → ¬ limits.shardEnabled → ¬ engine'.sharded) := by
  obtain ⟨hbase, hcounter, hnonempty⟩ := accountsOf_eq_some h
  simp only [Engine.addTrade, hbase, hcounter, if_neg hnonempty]
  refine ⟨_, if_neg haccepts, rfl, fun hplain hdisabled => ?_⟩
  rw [Bool.or_eq_true, decide_eq_true_eq, not_or]
  exact ⟨hplain, fun hlarge => haccepts ⟨hplain, hlarge, hdisabled⟩⟩

/-- A call that raises leaves the object as it was where both accounts were indexed before. -/
theorem unchanged_iff (h : Raises limits engine trade) :
    afterTrade limits engine trade = engine ↔ Known engine trade := by
  obtain ⟨nodes, maxGraphNodes, hraise⟩ := h
  cases haccounts : accountsOf trade with
  | none =>
    rw [addTrade_skipped haccounts] at hraise
    cases hraise
  | some accounts =>
    obtain ⟨base, counter⟩ := accounts
    by_cases hrefuses : Refuses limits engine base counter
    · have hafter := (addTrade_refused haccounts hrefuses).2
      have hgraph : { engine with graph := register engine.graph base counter } = engine ↔
          register engine.graph base counter = engine.graph :=
        ⟨congrArg Engine.graph, fun hsame => congrArg (fun g => { engine with graph := g }) hsame⟩
      rw [hafter, hgraph, register_eq_iff, Known, haccounts]
      exact ⟨fun hknown _ hmem => Option.some.inj hmem ▸ hknown, fun hknown => hknown _ rfl⟩
    · obtain ⟨engine', hok, -⟩ := addTrade_accepted haccounts hrefuses
      rw [hok] at hraise
      cases hraise

end

section

variable {limits : Limits} {sparse : SparseMatrices} {calls : List Call} {account : String}

theorem findWashRings_keeps {engine engine' : Engine} {query : RingQuery} {rings : List Ring}
    (h : engine.findWashRings limits sparse query = .ok (rings, engine')) :
    engine'.graph = engine.graph ∧ engine'.sharded = engine.sharded := by
  have hsearch {r : List Ring × Engine} (h : (searchRings limits sparse engine.graph query >>=
      fun rings => pure (rings, { engine with ringsCache := some (query, rings) })) =
        Except.ok r) : r.2.graph = engine.graph ∧ r.2.sharded = engine.sharded := by
    obtain ⟨rings, -, h⟩ := bind_eq_ok.mp h
    obtain rfl := pure_eq_ok.mp h
    exact ⟨rfl, rfl⟩
  unfold Engine.findWashRings at h
  obtain ⟨u, -, h⟩ := bind_eq_ok.mp h
  split at h
  · split_ifs at h
    · obtain ⟨-, rfl⟩ := Prod.mk.inj (pure_eq_ok.mp h)
      exact ⟨rfl, rfl⟩
    · exact hsearch h
  · exact hsearch h

theorem afterSearch_keeps (engine : Engine) (query : RingQuery) :
    (afterCall limits sparse engine (.findWashRings query)).graph = engine.graph ∧
      (afterCall limits sparse engine (.findWashRings query)).sharded = engine.sharded := by
  simp only [afterCall]
  split_ifs
  · exact ⟨rfl, rfl⟩
  · split
    · rename_i hok
      exact findWashRings_keeps hok
    · exact ⟨rfl, rfl⟩

theorem index_afterTrade {engine : Engine} {trade : Trade} :
    account ∈ (afterTrade limits engine trade).graph.index.accounts ↔
      account ∈ engine.graph.index.accounts ∨ account ∈ named [.addTrade trade] := by
  cases haccounts : accountsOf trade with
  | none =>
    have hnone : named [.addTrade trade] = [] := by simp [named, haccounts]
    rw [afterTrade, addTrade_skipped haccounts, hnone]
    exact (or_iff_left List.not_mem_nil).symm
  | some accounts =>
    obtain ⟨base, counter⟩ := accounts
    have hnamed : account ∈ named [.addTrade trade] ↔ account = base ∨ account = counter := by
      simp [named, haccounts]
    have hindex : account ∈ ((engine.graph.index.add base).add counter).accounts ↔
        account ∈ engine.graph.index.accounts ∨ account ∈ named [.addTrade trade] := by
      rw [hnamed, NodeIndex.mem_add, NodeIndex.mem_add, or_assoc]
    by_cases hrefuses : Refuses limits engine base counter
    · rw [(addTrade_refused haccounts hrefuses).2]
      exact hindex
    · obtain ⟨engine', hok, hindex', -⟩ := addTrade_accepted haccounts hrefuses
      rw [afterTrade, hok, hindex']
      exact hindex

theorem named_concat (calls : List Call) (c : Call) :
    named (calls ++ [c]) = named calls ++ named [c] := List.flatMap_append

theorem afterCalls_concat (calls : List Call) (c : Call) : afterCalls limits sparse (calls ++ [c]) =
    afterCall limits sparse (afterCalls limits sparse calls) c := List.foldl_concat _ _ _ _

theorem mem_index_iff : account ∈ (afterCalls limits sparse calls).graph.index.accounts ↔
    account ∈ named calls := by
  induction calls using List.reverseRecOn with
  | nil => rfl
  | append_singleton calls c ih =>
    rw [afterCalls_concat, named_concat, List.mem_append]
    cases c with
    | addTrade trade => rw [afterCall, index_afterTrade, ih]
    | findWashRings query =>
      rw [(afterSearch_keeps _ query).1, ih]
      exact (or_iff_left List.not_mem_nil).symm

theorem size_index : (afterCalls limits sparse calls).graph.index.size =
    (named calls).toFinset.card := by
  rw [NodeIndex.size, ← List.toFinset_card_of_nodup (NodeIndex.nodup _)]
  refine congrArg Finset.card (Finset.ext fun account => ?_)
  rw [List.mem_toFinset, List.mem_toFinset, mem_index_iff]

theorem not_sharded (h : ¬ limits.shardEnabled) : ¬ (afterCalls limits sparse calls).sharded := by
  induction calls using List.reverseRecOn with
  | nil => exact Bool.false_ne_true
  | append_singleton calls c ih =>
    rw [afterCalls_concat]
    cases c with
    | addTrade trade =>
      simp only [afterCall]
      cases haccounts : accountsOf trade with
      | none => rwa [afterTrade, addTrade_skipped haccounts]
      | some accounts =>
        obtain ⟨base, counter⟩ := accounts
        by_cases hrefuses : Refuses limits (afterCalls limits sparse calls) base counter
        · rwa [(addTrade_refused haccounts hrefuses).2]
        · obtain ⟨engine', hok, -, hplain⟩ := addTrade_accepted haccounts hrefuses
          rw [afterTrade, hok]
          exact hplain ih h
    | findWashRings query => rwa [(afterSearch_keeps _ query).2]

theorem raises_iff {trade : Trade} : Raises limits (afterCalls limits sparse calls) trade ↔
    (accountsOf trade).isSome ∧ ¬ limits.shardEnabled ∧
      limits.maxGraphNodes < (named (calls ++ [.addTrade trade])).toFinset.card := by
  have hsize := @size_index limits sparse (calls ++ [.addTrade trade])
  rw [afterCalls_concat, afterCall] at hsize
  rw [← hsize]
  cases haccounts : accountsOf trade with
  | none =>
    refine iff_of_false ?_ fun h => Bool.false_ne_true h.1
    rintro ⟨nodes, maxGraphNodes, hraise⟩
    rw [addTrade_skipped haccounts] at hraise
    cases hraise
  | some accounts =>
    obtain ⟨base, counter⟩ := accounts
    by_cases hrefuses : Refuses limits (afterCalls limits sparse calls) base counter
    · obtain ⟨hraise, hafter⟩ := addTrade_refused haccounts hrefuses
      rw [hafter]
      exact iff_of_true ⟨_, _, hraise⟩ ⟨rfl, hrefuses.2.2, hrefuses.2.1⟩
    · obtain ⟨engine', hok, hindex, -⟩ := addTrade_accepted haccounts hrefuses
      have hafter : afterTrade limits (afterCalls limits sparse calls) trade = engine' := by
        rw [afterTrade, hok]
      rw [hafter, hindex]
      refine iff_of_false ?_ fun h => hrefuses ⟨not_sharded h.2.1, h.2.2, h.2.1⟩
      rintro ⟨nodes, maxGraphNodes, hraise⟩
      rw [hok] at hraise
      cases hraise

/-- Where the accounts become too many, the trade that makes them so is the first to raise. -/
theorem exists_first {m : ℕ} (h : m < (named calls).toFinset.card) :
    ∃ before trade rest, calls = before ++ .addTrade trade :: rest ∧
      (named before).toFinset.card ≤ m ∧
      m < (named (before ++ [.addTrade trade])).toFinset.card := by
  induction calls using List.reverseRecOn with
  | nil => exact absurd h (Nat.not_lt_zero m)
  | append_singleton calls c ih =>
    by_cases hbefore : m < (named calls).toFinset.card
    · obtain ⟨before, trade, rest, rfl, hle, hlt⟩ := ih hbefore
      exact ⟨before, trade, rest ++ [c], by simp, hle, hlt⟩
    · cases c with
      | addTrade trade => exact ⟨calls, trade, [], rfl, not_lt.mp hbefore, h⟩
      | findWashRings query =>
        rw [named_concat] at h
        exact absurd (List.append_nil (named calls) ▸ h) hbefore

end

/-- After every sequence of calls, a call that raises leaves the object as it was exactly where both
accounts of its trade were indexed before. The calls of a sequence that raise all do so exactly
where sharding is on or the trades name no more accounts than the limit, and none raises. -/
theorem atomic_iff (limits : Limits) (sparse : SparseMatrices) (calls : List Call) :
    (∀ trade, Raises limits (afterCalls limits sparse calls) trade →
      (afterTrade limits (afterCalls limits sparse calls) trade = afterCalls limits sparse calls ↔
        Known (afterCalls limits sparse calls) trade)) ∧
    (Atomic limits sparse calls ↔
      limits.shardEnabled ∨ (named calls).toFinset.card ≤ limits.maxGraphNodes) := by
  refine ⟨fun trade => unchanged_iff, ?_, ?_⟩
  · intro h
    by_contra hlimit
    rw [not_or, not_le] at hlimit
    obtain ⟨before, trade, rest, hcalls, hle, hlt⟩ := exists_first hlimit.2
    have haccounts : (accountsOf trade).isSome := by
      by_contra hnone
      have hnamed : named [.addTrade trade] = [] := by
        simp [named, Option.not_isSome_iff_eq_none.mp hnone]
      rw [named_concat, hnamed, List.append_nil] at hlt
      exact absurd hlt (not_lt.mpr hle)
    have hsame := h before trade rest hcalls (raises_iff.mpr ⟨haccounts, hlimit.1, hlt⟩)
    have hsize : (afterCalls limits sparse (before ++ [.addTrade trade])).graph.index.size =
        (afterCalls limits sparse before).graph.index.size := by
      rw [afterCalls_concat, afterCall, hsame]
    rw [size_index, size_index] at hsize
    exact absurd (hsize ▸ hlt) (not_lt.mpr hle)
  · intro h before trade rest hcalls hraises
    obtain ⟨-, hdisabled, hlt⟩ := raises_iff.mp hraises
    refine absurd hlt (not_lt.mpr ?_)
    refine (Finset.card_le_card ?_).trans (h.resolve_left hdisabled)
    intro account hmem
    rw [List.mem_toFinset] at hmem ⊢
    rw [hcalls, List.append_cons, named, List.flatMap_append]
    exact List.mem_append_left _ hmem

def twoAccounts : Limits := ⟨50000, 2, false⟩

def trade (base counter : String) : Trade := ⟨some base, some counter, some 1, none⟩

/-- The third account is refused, and stays in the index. -/
theorem refused_account_stays :
    Raises twoAccounts (afterCalls twoAccounts .inOrder [.addTrade (trade "a" "b")])
      (trade "a" "c") ∧
      afterTrade twoAccounts (afterCalls twoAccounts .inOrder [.addTrade (trade "a" "b")])
          (trade "a" "c") ≠ afterCalls twoAccounts .inOrder [.addTrade (trade "a" "b")] := by
  refine ⟨⟨3, 2, by rfl⟩, fun hsame => ?_⟩
  exact absurd (congrArg (fun engine => engine.graph.index.accounts) hsame) (by decide)

end GraphLimit
