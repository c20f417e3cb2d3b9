import LedgerLens.Graph.TradeGraph

/-!
# The two paths of the adjacency

`TradeGraph._build_int_adjacency` reads the edges from a sparse matrix or from the dictionary. The
matrix does not hold the pairs whose volumes sum to zero, and where a ring needs one of them the
two paths find different rings.
-/
namespace AdjacencyPaths

open RingMetrics StrongComponents TradeGraph

/-- The accounts of a trade are indexed before the number of accounts is checked. -/
def register (graph : Graph) (base counter : String) : Graph where
  index := (graph.index.add base).add counter
  edges := graph.edges
  keys_nodup := graph.keys_nodup
  indexed e he := by
    simp only [NodeIndex.mem_add]
    exact ⟨.inl (.inl (graph.indexed e he).1), .inl (.inl (graph.indexed e he).2)⟩

/-- The object after `add_trade`, whether the call returns or raises. -/
def afterTrade (limits : Limits) (engine : Engine) (trade : Trade) : Engine :=
  match engine.addTrade limits trade with
  | .ok engine => engine
  | .error _ =>
    match trade.baseAccount, trade.counterAccount with
    | some base, some counter => { engine with graph := register engine.graph base counter }
    | _, _ => engine

def afterTrades (limits : Limits) (trades : List Trade) : Engine :=
  trades.foldl (afterTrade limits) Engine.new

def withThreshold (limits : Limits) (threshold : ℕ) : Limits :=
  { limits with mmapThreshold := threshold }

/-- Both calls return the same rings, or raise the same error. -/
def SameRings : Except GraphError (List Ring × Engine) → Except GraphError (List Ring × Engine) →
    Prop
  | .ok (rings, _), .ok (rings', _) => rings.Perm rings'
  | .error e, .error e' => e = e'
  | _, _ => False

def Traded (edges : EdgeDict) (u v : String) : Prop := ∃ data, ((u, v), data) ∈ edges

/-- The volumes of the trades do not sum to zero. -/
def Voluminous (edges : EdgeDict) (u v : String) : Prop :=
  ∃ data, ((u, v), data) ∈ edges ∧ data.totalVolume ≠ 0

structure Passes (query : RingQuery) (edges : EdgeDict) (C : Finset String) : Prop where
  size : query.minRingSize ≤ C.card
  volume : query.minCycleVolume ≤ (ringOf query C.sort edges).cycleVolume

/-- A component that passes the filters, or has a part of non-zero volumes that does, does without
the pairs of zero volume. -/
def ZerosSpare (query : RingQuery) (edges : EdgeDict) : Prop :=
  ∀ C, IsComponent (Traded edges) C →
    (Passes query edges C ∨ ∃ D ⊆ C, IsComponent (Voluminous edges) D ∧ Passes query edges D) →
    IsComponent (Voluminous edges) C

section

variable {limits : Limits} {sparse : SparseMatrices} {query : RingQuery} {graph : Graph}
  {edges : EdgeDict} {rings rings' : List Ring} {ring : Ring} {C D : Finset String} {n : ℕ}

theorem Voluminous.traded {u v : String} (h : Voluminous edges u v) : Traded edges u v := by
  obtain ⟨data, hmem, -⟩ := h
  exact ⟨data, hmem⟩

theorem scanned_large (h : limits.mmapThreshold ≤ n) :
    Scanned limits n edges = Voluminous edges := by
  funext u v
  refine propext (exists_congr fun data => and_congr_right fun _ => ?_)
  exact ⟨fun hvolume => hvolume h, fun hvolume _ => hvolume⟩

theorem scanned_small (h : n < limits.mmapThreshold) : Scanned limits n edges = Traded edges := by
  funext u v
  refine propext (exists_congr fun data => and_iff_left fun hle => ?_)
  exact absurd hle (not_le.mpr h)

theorem sccRing_sort : sccRing query C.sort edges = some ring ↔
    Passes query edges C ∧ ringOf query C.sort edges = ring := by
  rw [sccRing_eq_some, and_comm]
  refine and_congr_left fun heq => ?_
  subst heq
  have hlen : (ringOf query C.sort edges).accounts.length = C.card := Finset.length_sort _
  rw [hlen]
  exact ⟨fun ⟨hsize, hvolume⟩ => ⟨hsize, hvolume⟩, fun h => ⟨h.size, h.volume⟩⟩

theorem ringOf_sort_inj (h : ringOf query C.sort edges = ringOf query D.sort edges) : C = D := by
  have haccounts : C.sort = D.sort := congrArg Ring.accounts h
  rw [← Finset.sort_toFinset C (· ≤ ·), haccounts, Finset.sort_toFinset]

theorem rings_nodup (h : searchRings limits sparse graph query = .ok rings) : rings.Nodup := by
  rw [searchRings] at h
  cases hadj : buildIntAdjacency limits sparse graph with
  | error e =>
    rw [hadj] at h
    cases h
  | ok adjacency =>
    rw [hadj, Except.map] at h
    obtain rfl := Except.ok.inj h
    rw [(List.perm_insertionSort _ _).nodup_iff]
    have hcomps := TarjanScc.run_components adjacency
    have hdisjoint := (List.nodup_flatten.mp hcomps.nodup).2
    rw [List.Nodup, List.pairwise_filterMap]
    refine hdisjoint.imp_of_mem fun {scc scc'} hscc hscc' hdis ring hring ring' hring' heq => ?_
    rw [sccAccounts_eq (hcomps.nodup_of_mem hscc)] at hring
    rw [sccAccounts_eq (hcomps.nodup_of_mem hscc')] at hring'
    have hsets := ringOf_sort_inj
      ((sccRing_sort.mp hring).2.trans (heq.trans (sccRing_sort.mp hring').2.symm))
    obtain ⟨u, hu⟩ := (isComponent_sccSet hadj hscc).nonempty
    obtain ⟨i, hi, hid⟩ := mem_sccSet.mp hu
    obtain ⟨j, hj, hjd⟩ := mem_sccSet.mp (hsets ▸ hu)
    obtain rfl : i = j := Option.some.inj (hid.symm.trans hjd)
    exact hdis hi hj

theorem exists_traded_component (hD : IsComponent (Voluminous graph.edges) D) :
    ∃ C, IsComponent (Traded graph.edges) C ∧ D ⊆ C := by
  obtain ⟨u, hu⟩ := hD.nonempty
  obtain ⟨v, huv⟩ := hD.touched u hu
  have hnodes (a b : String) (hab : Traded graph.edges a b) :
      a ∈ graph.index.accounts.toFinset ∧ b ∈ graph.index.accounts.toFinset := by
    obtain ⟨data, hmem⟩ := hab
    obtain ⟨ha, hb⟩ := graph.indexed _ hmem
    exact ⟨List.mem_toFinset.mpr ha, List.mem_toFinset.mpr hb⟩
  obtain ⟨C, hC, huC⟩ := IsComponent.exists_of_touched hnodes
    ⟨v, huv.imp Voluminous.traded Voluminous.traded⟩
  exact ⟨C, hC, IsComponent.subset_of_mem (fun _ _ => Voluminous.traded) hD hC hu huC⟩

theorem zerosSpare_iff : ZerosSpare query graph.edges ↔ ∀ C, Passes query graph.edges C →
    (IsComponent (Voluminous graph.edges) C ↔ IsComponent (Traded graph.edges) C) := by
  constructor
  · intro h C hpasses
    constructor
    · intro hC
      obtain ⟨C', hC', hsub⟩ := exists_traded_component hC
      have hkept := h C' hC' (.inr ⟨C, hsub, hC, hpasses⟩)
      obtain ⟨u, hu⟩ := hC.nonempty
      exact hC.ext hkept hu (hsub hu) ▸ hC'
    · exact fun hC => h C hC (.inl hpasses)
  · intro h C hC hsome
    rcases hsome with hpasses | ⟨D, hsub, hD, hpasses⟩
    · exact (h C hpasses).mpr hC
    · obtain ⟨u, hu⟩ := hD.nonempty
      have hD' := (h D hpasses).mp hD
      exact hD'.ext hC hu (hsub hu) ▸ hD

theorem mem_rings_iff {Edge : String → String → Prop}
    (hscanned : Scanned limits graph.index.size graph.edges = Edge)
    (h : searchRings limits sparse graph query = .ok rings) : ring ∈ rings ↔
      ∃ C, IsComponent Edge C ∧ Passes query graph.edges C ∧
        ringOf query C.sort graph.edges = ring := by
  simp only [mem_searchRings h, hscanned, sccRing_sort]

theorem perm_iff {limits' : Limits} (hlarge : limits.mmapThreshold ≤ graph.index.size)
    (hsmall : graph.index.size < limits'.mmapThreshold)
    (h : searchRings limits sparse graph query = .ok rings)
    (h' : searchRings limits' sparse graph query = .ok rings') :
    rings.Perm rings' ↔ ZerosSpare query graph.edges := by
  rw [List.perm_ext_iff_of_nodup (rings_nodup h) (rings_nodup h'), zerosSpare_iff]
  simp only [mem_rings_iff (scanned_large hlarge) h, mem_rings_iff (scanned_small hsmall) h']
  constructor
  · intro hrings C hpasses
    constructor
    · intro hC
      obtain ⟨C', hC', -, heq⟩ := (hrings _).mp ⟨C, hC, hpasses, rfl⟩
      exact ringOf_sort_inj heq ▸ hC'
    · intro hC
      obtain ⟨C', hC', -, heq⟩ := (hrings _).mpr ⟨C, hC, hpasses, rfl⟩
      exact ringOf_sort_inj heq ▸ hC'
  · intro hsame ring
    refine exists_congr fun C => ?_
    constructor
    · exact fun ⟨hC, hpasses, hring⟩ => ⟨(hsame C hpasses).mp hC, hpasses, hring⟩
    · exact fun ⟨hC, hpasses, hring⟩ => ⟨(hsame C hpasses).mpr hC, hpasses, hring⟩

end

section

variable {limits : Limits} {sparse : SparseMatrices} {engine : Engine} {query : RingQuery}

theorem afterTrade_cache (trade : Trade) (h : engine.ringsCache = none) :
    (afterTrade limits engine trade).ringsCache = none := by
  unfold afterTrade
  split
  · rename_i engine' hadd
    simp only [Engine.addTrade] at hadd
    split at hadd
    · split_ifs at hadd
      · exact Except.ok.inj hadd ▸ h
      · exact Except.ok.inj hadd ▸ rfl
    · exact Except.ok.inj hadd ▸ h
  · split
    all_goals exact h

theorem afterTrades_cache (trades : List Trade) :
    (afterTrades limits trades).ringsCache = none := by
  induction trades using List.reverseRecOn with
  | nil => rfl
  | append_singleton trades trade ih =>
    rw [afterTrades, List.foldl_append]
    exact afterTrade_cache trade ih

theorem findWashRings_fresh (h : engine.ringsCache = none) :
    engine.findWashRings limits sparse query = (checkSizes query).bind fun _ =>
      (searchRings limits sparse engine.graph query).map fun rings =>
        (rings, { engine with ringsCache := some (query, rings) }) := by
  unfold Engine.findWashRings
  rw [h]
  cases checkSizes query with
  | error e => rfl
  | ok u =>
    cases searchRings limits sparse engine.graph query with
    | error e => rfl
    | ok rings => rfl

theorem checkSizes_ok_iff :
    checkSizes query = .ok () ↔
      ¬ (query.minRingSize < 1 ∨ query.maxRingSize < query.minRingSize) := by
  unfold checkSizes
  split_ifs with hmin hmax
  · exact iff_of_false nofun (not_not.mpr (.inl hmin))
  · exact iff_of_false nofun (not_not.mpr (.inr hmax))
  · exact iff_of_true rfl (not_or.mpr ⟨hmin, hmax⟩)

end

/-- After every sequence of trades the two paths give the same rings exactly where the sizes asked
for are refused, or the accounts are not too many for a matrix and every component that passes the
filters does without its pairs of zero volume. -/
theorem sameRings_iff (limits : Limits) (sparse : SparseMatrices) (trades : List Trade)
    (query : RingQuery) {large small : ℕ}
    (hlarge : large ≤ (afterTrades limits trades).graph.index.size)
    (hsmall : (afterTrades limits trades).graph.index.size < small) :
    SameRings
      ((afterTrades limits trades).findWashRings (withThreshold limits large) sparse query)
      ((afterTrades limits trades).findWashRings (withThreshold limits small) sparse query) ↔
    (query.minRingSize < 1 ∨ query.maxRingSize < query.minRingSize) ∨
      (afterTrades limits trades).graph.index.size ≤ limits.maxGraphNodes ∧
        ZerosSpare query (afterTrades limits trades).graph.edges := by
  have hcache := @afterTrades_cache limits trades
  rw [findWashRings_fresh hcache, findWashRings_fresh hcache]
  generalize afterTrades limits trades = engine at hlarge hsmall
  by_cases hsizes : query.minRingSize < 1 ∨ query.maxRingSize < query.minRingSize
  · refine iff_of_true ?_ (.inl hsizes)
    cases hcheck : checkSizes query with
    | error e => exact rfl
    | ok u => exact absurd hsizes (checkSizes_ok_iff.mp hcheck)
  rw [checkSizes_ok_iff.mpr hsizes, or_iff_right hsizes]
  obtain ⟨rings', hdict⟩ : ∃ rings, searchRings (withThreshold limits small) sparse engine.graph
      query = .ok rings := searchRings_ok_iff.mpr (.inl hsmall)
  rw [hdict]
  cases hcsr : searchRings (withThreshold limits large) sparse engine.graph query with
  | error e =>
    refine iff_of_false id fun h => ?_
    obtain ⟨rings, hrings⟩ : ∃ rings, searchRings (withThreshold limits large) sparse engine.graph
        query = .ok rings := searchRings_ok_iff.mpr (.inr h.1)
    exact nomatch hcsr.symm.trans hrings
  | ok rings =>
    have hnodes := (searchRings_ok_iff.mp ⟨rings, hcsr⟩).resolve_left (not_lt.mpr hlarge)
    exact (perm_iff hlarge hsmall hcsr hdict).trans (and_iff_right hnodes).symm

def zeroTrades : List Trade :=
  [("a", "b"), ("b", "c"), ("c", "a")].map fun key => ⟨some key.1, some key.2, some 0, some 0⟩

def defaultLimits : Limits := ⟨50000, 1000000, true⟩

def defaultQuery : RingQuery := ⟨3, 10, 0⟩

theorem sameRings_zeroTrades : SameRings
    ((afterTrades defaultLimits zeroTrades).findWashRings (withThreshold defaultLimits 2) .inOrder
      defaultQuery)
    ((afterTrades defaultLimits zeroTrades).findWashRings (withThreshold defaultLimits 4) .inOrder
      defaultQuery) ↔
    (defaultQuery.minRingSize < 1 ∨ defaultQuery.maxRingSize < defaultQuery.minRingSize) ∨
      (afterTrades defaultLimits zeroTrades).graph.index.size ≤ defaultLimits.maxGraphNodes ∧
        ZerosSpare defaultQuery (afterTrades defaultLimits zeroTrades).graph.edges :=
  sameRings_iff defaultLimits .inOrder zeroTrades defaultQuery (by decide) (by decide)

def reported (result : Except GraphError (List Ring × Engine)) : Option (List (List String)) :=
  result.toOption.map fun outcome => outcome.1.map Ring.accounts

/-- The dictionary path reports the ring and the matrix path does not. -/
theorem zeroTrades_differ : ¬ SameRings
    ((afterTrades defaultLimits zeroTrades).findWashRings (withThreshold defaultLimits 3) .inOrder
      defaultQuery)
    ((afterTrades defaultLimits zeroTrades).findWashRings (withThreshold defaultLimits 4) .inOrder
      defaultQuery) := by
  have hmatrix : reported ((afterTrades defaultLimits zeroTrades).findWashRings
      (withThreshold defaultLimits 3) .inOrder defaultQuery) = some [] := by decide +kernel
  have hdict : reported ((afterTrades defaultLimits zeroTrades).findWashRings
      (withThreshold defaultLimits 4) .inOrder defaultQuery) = some [["a", "b", "c"]] := by
    decide +kernel
  intro h
  cases hleft : (afterTrades defaultLimits zeroTrades).findWashRings
      (withThreshold defaultLimits 3) .inOrder defaultQuery with
  | error e =>
    rw [hleft] at hmatrix
    cases hmatrix
  | ok outcome =>
    cases hright : (afterTrades defaultLimits zeroTrades).findWashRings
        (withThreshold defaultLimits 4) .inOrder defaultQuery with
    | error e =>
      rw [hright] at hdict
      cases hdict
    | ok outcome' =>
      rw [hleft, hright] at h
      rw [hleft, reported, Except.toOption, Option.map_some] at hmatrix
      rw [hright, reported, Except.toOption, Option.map_some] at hdict
      have hlengths := (h.map Ring.accounts).length_eq
      rw [Option.some.inj hmatrix, Option.some.inj hdict] at hlengths
      exact absurd hlengths (by decide)

end AdjacencyPaths
