import LedgerLens.FallibleRuns
import LedgerLens.Graph.ShardedTradeGraph
import Mathlib.Tactic.Linarith

/-!
# Failing shards

A run of `ShardedTradeGraph` in which workers die, against the run in which none does. Failed shards
are moved onto survivors, whose edges grow, and what a shard finds grows with its edges.
-/
namespace ShardFailures

open FallibleRuns GraphSharding RingMetrics ShardedTradeGraph SimpleCycles StrongComponents
  SubsumptionMerge TradeGraph

section

variable {query : RingQuery} {accounts accounts' : List String} {edges edges' : EdgeDict}

theorem totalVolume_mono (hnodup : edges.Nodup) (hsub : edges ⊆ edges')
    (hvolumes : ∀ e ∈ edges', 0 ≤ e.2.totalVolume) : totalVolume edges ≤ totalVolume edges' := by
  obtain ⟨l, hperm, hsublist⟩ := hnodup.subperm hsub
  rw [totalVolume, ← (hperm.map _).sum_eq]
  refine (hsublist.map _).sum_le_sum fun w hw => ?_
  obtain ⟨e, he, rfl⟩ := List.mem_map.mp hw
  exact hvolumes e he

theorem two_mul_le_totalVolume {c : ℚ} {a b u v : String} (hne : a ≠ u)
    (hab : HeavyEdge edges c a b) (huv : HeavyEdge edges c u v)
    (hvolumes : ∀ e ∈ edges, 0 ≤ e.2.totalVolume) : c ≤ totalVolume edges * (1 / 2) := by
  obtain ⟨-, data, hmem, hdata⟩ := hab
  obtain ⟨-, data', hmem', hdata'⟩ := huv
  have hpair : totalVolume [((a, b), data), ((u, v), data')] ≤ totalVolume edges := by
    refine totalVolume_mono ?_ ?_ hvolumes
    · simp [hne]
    · intro e he
      simp only [List.mem_cons, List.not_mem_nil, or_false] at he
      rcases he with rfl | rfl
      · exact hmem
      · exact hmem'
  simp only [totalVolume, List.map_cons, List.map_nil, List.sum_cons, List.sum_nil] at hpair
  rw [totalVolume]
  linarith

def Steady (query : RingQuery) : Prop :=
  2 ≤ query.minRingSize ∨ query.maxRingSize ≤ maxExactCycleVolumeNodes ∨ query.minCycleVolume ≤ 0

variable (hnodup : edges.Nodup) (hsub : edges ⊆ edges')
  (hvolumes : ∀ e ∈ edges', 0 ≤ e.2.totalVolume)
  (haccounts : accounts.Nodup) (haccounts' : accounts'.Nodup) (hmore : accounts ⊆ accounts')

include hsub hmore in
theorem inside_subset : inside accounts edges ⊆ inside accounts' edges' := by
  intro e he
  obtain ⟨hmem, hbase, hcounter⟩ := mem_inside.mp he
  exact mem_inside.mpr ⟨hsub hmem, hmore hbase, hmore hcounter⟩

include hnodup hsub hvolumes hmore in
theorem insideVolume_mono :
    totalVolume (inside accounts edges) ≤ totalVolume (inside accounts' edges') :=
  totalVolume_mono (hnodup.filter _) (inside_subset hsub hmore)
    fun e he => hvolumes e (mem_inside.mp he).1

include hsub haccounts haccounts' hmore in
theorem cycleVolume_mono {c : ℚ} (hc : 0 < c) {minRingSize : ℕ}
    (h : c ≤ cycleVolume accounts (inside accounts edges) minRingSize) :
    c ≤ cycleVolume accounts' (inside accounts' edges') minRingSize := by
  have hlength := (haccounts.subperm hmore).length_le
  have hedge (u v : String) (huv : HeavyEdge (inside accounts edges) c u v) :
      HeavyEdge (inside accounts' edges') c u v := huv.mono (inside_subset hsub hmore)
  rw [le_cycleVolume_iff haccounts (fun e he => (mem_inside.mp he).2) hc] at h
  rw [le_cycleVolume_iff haccounts' (fun e he => (mem_inside.mp he).2) hc]
  by_cases hlarge' : maxExactCycleVolumeNodes < accounts'.length
  · rw [if_pos hlarge']
    split_ifs at h with hlarge
    · obtain ⟨l, hl⟩ := h
      exact ⟨l, hl.mono hedge⟩
    · obtain ⟨l, hl, htwo, hlong⟩ := h
      exact ⟨l, (hl.mono hedge).cluster (SimpleCycle.ne_nil_of_two_le htwo) hlong⟩
  · rw [if_neg (fun hlarge => hlarge' (hlarge.trans_le hlength))] at h
    rw [if_neg hlarge']
    obtain ⟨l, hl, hlong⟩ := h
    exact ⟨l, hl.mono hedge, hlong⟩

include hvolumes haccounts in
theorem cycleVolume_le_half {c : ℚ} (hc : 0 < c) {minRingSize : ℕ}
    (htwo : 2 ≤ minRingSize ∨ accounts.length ≤ maxExactCycleVolumeNodes)
    (h : c ≤ cycleVolume accounts (inside accounts edges') minRingSize) :
    c ≤ totalVolume (inside accounts edges') * (1 / 2) := by
  have hinner (e : (String × String) × EdgeData) (he : e ∈ inside accounts edges') :
      0 ≤ e.2.totalVolume := hvolumes e (mem_inside.mp he).1
  rw [le_cycleVolume_iff haccounts (fun e he => (mem_inside.mp he).2) hc] at h
  have hedges : ∃ a b u v, a ≠ u ∧ HeavyEdge (inside accounts edges') c a b ∧
      HeavyEdge (inside accounts edges') c u v := by
    split_ifs at h with hlarge
    · obtain ⟨l, hl⟩ := h
      have hsize : 2 ≤ minRingSize := htwo.resolve_right (not_le.mpr hlarge)
      exact Cluster.two_edges ⟨hl.nodup, hsize.trans hl.large, hl.linked, hl.touched⟩
    · obtain ⟨l, hl, hlength, -⟩ := h
      exact hl.two_edges hlength
  obtain ⟨a, b, u, v, hne, hab, huv⟩ := hedges
  exact two_mul_le_totalVolume hne hab huv hinner

include hnodup hsub hvolumes haccounts haccounts' hmore in
theorem ringVolume_mono (hquery : Steady query)
    (h : query.minCycleVolume ≤ (ringOf query accounts edges).cycleVolume) :
    query.minCycleVolume ≤ (ringOf query accounts' edges').cycleVolume := by
  have hlength := (haccounts.subperm hmore).length_le
  rcases le_or_gt query.minCycleVolume 0 with hneg | hpos
  · exact hneg.trans (ringOf_cycleVolume_nonneg hvolumes)
  simp only [ringOf] at h ⊢
  have htotal := insideVolume_mono hnodup hsub hvolumes hmore
  by_cases hlarge' : query.maxRingSize < accounts'.length
  · rw [if_pos hlarge']
    split_ifs at h with hlarge
    · linarith
    have hedges (e : (String × String) × EdgeData) (he : e ∈ edges) : 0 ≤ e.2.totalVolume :=
      hvolumes e (hsub he)
    have htwo : 2 ≤ query.minRingSize ∨ accounts.length ≤ maxExactCycleVolumeNodes := by
      rcases hquery with hmin | hmax | hvolume
      · exact .inl hmin
      · exact .inr (by omega)
      · exact absurd hvolume (not_le.mpr hpos)
    have hhalf := cycleVolume_le_half hedges haccounts hpos htwo h
    linarith
  · rw [if_neg (fun hlarge => hlarge' (hlarge.trans_le hlength))] at h
    rw [if_neg hlarge']
    exact cycleVolume_mono hsub haccounts haccounts' hmore hpos h

end

section

variable {limits : Limits} {sparse : SparseMatrices} {query : RingQuery} {graph : Graph}
  {shard shard' : ShardEdges graph} {rings rings' : List Ring}

theorem edges_nodup (shard : ShardEdges graph) : shard.edges.Nodup := shard.keys_nodup.of_map _

theorem ShardScanned.mono (hsub : shard.edges ⊆ shard'.edges) (u v : String)
    (h : ShardScanned limits shard u v) : ShardScanned limits shard' u v := by
  obtain ⟨data, hmem, hvolume⟩ := h
  exact ⟨data, hsub hmem, hvolume⟩

theorem exists_larger_ring (hquery : Steady query)
    (hvolumes : ∀ e ∈ graph.edges, 0 ≤ e.2.totalVolume) (hsub : shard.edges ⊆ shard'.edges)
    (hrun : runShardFindRings limits sparse shard query = .ok rings)
    (hrun' : runShardFindRings limits sparse shard' query = .ok rings') {ring : Ring}
    (hring : ring ∈ rings) :
    ∃ ring' ∈ rings', ring.accounts.toFinset ⊆ ring'.accounts.toFinset := by
  obtain ⟨C, hC, hscc⟩ := (mem_runShardFindRings hrun).mp hring
  obtain ⟨hringOf, hsize, hvolume⟩ := sccRing_eq_some.mp hscc
  subst hringOf
  obtain ⟨D, hD, hCD⟩ : ∃ D, IsComponent (ShardScanned limits shard') D ∧ C ⊆ D := by
    have hnodes (a b : String) (hab : ShardScanned limits shard' a b) :
        a ∈ graph.index.accounts.toFinset ∧ b ∈ graph.index.accounts.toFinset := by
      obtain ⟨data, hmem, -⟩ := hab
      have hindexed := graph.indexed _ (shard'.subset _ hmem)
      exact ⟨List.mem_toFinset.mpr hindexed.1, List.mem_toFinset.mpr hindexed.2⟩
    obtain ⟨u, hu⟩ := hC.nonempty
    obtain ⟨v, hv⟩ := hC.touched u hu
    obtain ⟨D, hD, huD⟩ := IsComponent.exists_of_touched hnodes
      ⟨v, hv.imp (ShardScanned.mono hsub u v) (ShardScanned.mono hsub v u)⟩
    exact ⟨D, hD, hC.subset_of_mem (ShardScanned.mono hsub) hD hu huD⟩
  have hmore : C.sort ⊆ D.sort := fun u hu =>
    (Finset.mem_sort _).mpr (hCD ((Finset.mem_sort _).mp hu))
  have hlength := ((Finset.sort_nodup C _).subperm hmore).length_le
  refine ⟨ringOf query D.sort shard'.edges, (mem_runShardFindRings hrun').mpr ⟨D, hD, ?_⟩, ?_⟩
  · refine sccRing_eq_some.mpr ⟨rfl, hsize.trans hlength, ?_⟩
    exact ringVolume_mono (edges_nodup shard) hsub (fun e he => hvolumes e (shard'.subset e he))
      (Finset.sort_nodup C _) (Finset.sort_nodup D _) hmore hquery hvolume
  · intro u hu
    exact List.mem_toFinset.mpr (hmore (List.mem_toFinset.mp hu))

end

section

variable {limits : Limits} {sparse : SparseMatrices} {query : RingQuery} {graph : Graph}
  {original : ℕ → ShardEdges graph} {count : ℕ} {remaining : List ℕ} {state : ShardState graph}

/-- A survivor has taken the edges of the failed shard and has searched them again. -/
structure Moves (limits : Limits) (sparse : SparseMatrices) (query : RingQuery)
    (shardId target : ℕ) (state state' : ShardState graph) : Prop where
  survivor : target ∈ state.results.map Prod.fst
  keys : state'.results.map Prod.fst = state.results.map Prod.fst
  results : ∀ r ∈ state'.results, r.1 ≠ target ∧ r ∈ state.results ∨ r.1 = target ∧
    runShardFindRings limits sparse ((state.edgeData target).update (state.edgeData shardId))
      query = .ok r.2
  moved : target ≠ shardId →
    state'.edgeData target = (state.edgeData target).update (state.edgeData shardId)
  others : ∀ s, s ≠ target → s ≠ shardId → state'.edgeData s = state.edgeData s

theorem rebalanceShard_moves (sparse : SparseMatrices) (hsearch : Searchable limits graph query)
    (hresults : state.results ≠ []) (shardId : ℕ) :
    ∃ target state', rebalanceShard limits sparse query state shardId = .ok state' ∧
      Moves limits sparse query shardId target state state' := by
  cases htarget : (state.results.map Prod.fst).argmin
      fun s => (state.edgeData s).edges.length with
  | none => exact absurd (List.map_eq_nil_iff.mp (List.argmin_eq_none.mp htarget)) hresults
  | some target =>
    obtain ⟨rings, hrings⟩ : ∃ rings, runShardFindRings limits sparse
        ((state.edgeData target).update (state.edgeData shardId)) query = .ok rings :=
      (runShardFindRings_ok_iff _).mpr hsearch
    rw [rebalanceShard, htarget]
    refine ⟨target, _, bind_eq_ok.mpr ⟨rings, hrings, rfl⟩, List.argmin_mem htarget, ?_, ?_, ?_, ?_⟩
    · rw [List.map_map]
      refine List.map_congr_left fun r _ => ?_
      rw [Function.comp_apply]
      split_ifs with hr
      · exact hr.symm
      · rfl
    · intro r' hr'
      obtain ⟨r, hr, rfl⟩ := List.mem_map.mp hr'
      split_ifs with hrt
      · exact .inr ⟨rfl, hrings⟩
      · exact .inl ⟨hrt, hr⟩
    · intro hne
      exact (Function.update_of_ne hne _ _).trans (Function.update_self _ _ _)
    · intro s hs hs'
      exact (Function.update_of_ne hs' _ _).trans (Function.update_of_ne hs _ _)

/-- The survivors have answered for the edges they now have. Each shard of the start is still to be
moved, or a survivor has its edges. -/
structure Rebalanced (limits : Limits) (sparse : SparseMatrices) (query : RingQuery)
    (original : ℕ → ShardEdges graph) (count : ℕ) (remaining : List ℕ)
    (state : ShardState graph) : Prop where
  nonempty : state.results ≠ []
  answered : ∀ r ∈ state.results,
    runShardFindRings limits sparse (state.edgeData r.1) query = .ok r.2
  nodup : remaining.Nodup
  apart : ∀ s ∈ remaining, s ∉ state.results.map Prod.fst
  held : ∀ s < count, s ∈ remaining ∧ (original s).edges ⊆ (state.edgeData s).edges ∨
    ∃ t ∈ state.results.map Prod.fst, (original s).edges ⊆ (state.edgeData t).edges

theorem Rebalanced.step {shardId : ℕ} (hsearch : Searchable limits graph query)
    (h : Rebalanced limits sparse query original count (shardId :: remaining) state) :
    ∃ state', rebalanceShard limits sparse query state shardId = .ok state' ∧
      Rebalanced limits sparse query original count remaining state' := by
  obtain ⟨hnew, hnodup⟩ := List.nodup_cons.mp h.nodup
  have hfailed : shardId ∉ state.results.map Prod.fst := h.apart shardId List.mem_cons_self
  obtain ⟨target, state', hrun, hmoves⟩ := rebalanceShard_moves sparse hsearch h.nonempty shardId
  have hmoved := hmoves.moved fun heq => hfailed (heq ▸ hmoves.survivor)
  refine ⟨state', hrun, ?_, fun r hr => ?_, hnodup, fun s hs => ?_, fun s hs => ?_⟩
  · rw [ne_eq, ← List.map_eq_nil_iff (f := Prod.fst), hmoves.keys, List.map_eq_nil_iff]
    exact h.nonempty
  · rcases hmoves.results r hr with ⟨hne, hr⟩ | ⟨rfl, hrings⟩
    · rw [hmoves.others r.1 hne fun heq => hfailed (heq ▸ List.mem_map_of_mem hr)]
      exact h.answered r hr
    · rw [hmoved]
      exact hrings
  · rw [hmoves.keys]
    exact h.apart s (List.mem_cons_of_mem _ hs)
  · rw [hmoves.keys]
    -- The survivor keeps its own edges and has those of the failed shard.
    have hkept {edges : EdgeDict} {t : ℕ} (ht : t ∈ state.results.map Prod.fst)
        (hedges : edges ⊆ (state.edgeData t).edges) :
        edges ⊆ (state'.edgeData t).edges := by
      by_cases heq : t = target
      · subst heq
        rw [hmoved]
        exact fun e he => ShardEdges.mem_update.mpr (.inl (hedges he))
      · rw [hmoves.others t heq fun heq => hfailed (heq ▸ ht)]
        exact hedges
    rcases h.held s hs with ⟨hmem, hedges⟩ | ⟨t, ht, hedges⟩
    · rcases List.mem_cons.mp hmem with rfl | hmem
      · refine .inr ⟨target, hmoves.survivor, ?_⟩
        rw [hmoved]
        exact fun e he => ShardEdges.mem_update.mpr (.inr (hedges he))
      · have hne : s ≠ target := fun heq =>
          h.apart s (List.mem_cons_of_mem _ hmem) (heq ▸ hmoves.survivor)
        rw [hmoves.others s hne fun heq => hnew (heq ▸ hmem)]
        exact .inl ⟨hmem, hedges⟩
    · exact .inr ⟨t, ht, hkept ht hedges⟩

theorem rebalanceFailedShards_rebalanced {failed : List ℕ} (hsearch : Searchable limits graph query)
    (h : Rebalanced limits sparse query original count failed state) :
    ∃ state', rebalanceFailedShards limits sparse query failed state = .ok state' ∧
      Rebalanced limits sparse query original count [] state' := by
  rw [rebalanceFailedShards, if_neg h.nonempty]
  exact foldlM_succeeds (P := Rebalanced limits sparse query original count)
    (fun _ _ _ h => h.step hsearch) h

end

section

variable {limits : Limits} {sparse : SparseMatrices} {query : RingQuery} {graph : Graph}
  {placement : Placement graph.edges} {hops : ℕ} {dies : ℕ → Bool}

/-- What the workers have answered. -/
def startState (limits : Limits) (sparse : SparseMatrices) (query : RingQuery) (dies : ℕ → Bool)
    (placement : Placement graph.edges) (hops : ℕ) : ShardState graph where
  results := (List.range placement.shardCount).filterMap fun s =>
    (workerResult limits sparse query dies (shardEdgeData graph placement hops) s).map
      fun rings => (s, rings)
  edgeData := shardEdgeData graph placement hops
  nodeToShard := placement.nodeToShard

def failedShards (limits : Limits) (sparse : SparseMatrices) (query : RingQuery) (dies : ℕ → Bool)
    (placement : Placement graph.edges) (hops : ℕ) : List ℕ :=
  (List.range placement.shardCount).filter fun s =>
    workerResult limits sparse query dies (shardEdgeData graph placement hops) s = none

theorem mem_startState {r : ℕ × List Ring} :
    r ∈ (startState limits sparse query dies placement hops).results ↔
      r.1 < placement.shardCount ∧
        workerResult limits sparse query dies (shardEdgeData graph placement hops) r.1 =
          some r.2 := by
  simp only [startState, List.mem_filterMap, List.mem_range, Option.map_eq_some_iff]
  constructor
  · rintro ⟨s, hs, rings, hrings, rfl⟩
    exact ⟨hs, hrings⟩
  · rintro ⟨hs, hrings⟩
    exact ⟨r.1, hs, r.2, hrings, rfl⟩

theorem workerResult_eq_some {edgeData : ℕ → ShardEdges graph} {s : ℕ} {rings : List Ring} :
    workerResult limits sparse query dies edgeData s = some rings ↔ dies s = false ∧
      runShardFindRings limits sparse (edgeData s) query = .ok rings := by
  rw [workerResult]
  cases hdies : dies s with
  | true => simp
  | false =>
    rw [if_neg Bool.false_ne_true]
    cases runShardFindRings limits sparse (edgeData s) query <;> simp [Except.toOption]

theorem rebalanced_start (hsearch : Searchable limits graph query)
    (hsurvivor : ∃ s < placement.shardCount, dies s = false) :
    Rebalanced limits sparse query (shardEdgeData graph placement hops) placement.shardCount
      (failedShards limits sparse query dies placement hops)
      (startState limits sparse query dies placement hops) := by
  refine ⟨?_, fun r hr => ?_, List.nodup_range.filter _, fun s hs hmem => ?_, fun s hs => ?_⟩
  · obtain ⟨s, hs, halive⟩ := hsurvivor
    obtain ⟨rings, hrings⟩ : ∃ rings, runShardFindRings limits sparse
        (shardEdgeData graph placement hops s) query = .ok rings :=
      (runShardFindRings_ok_iff _).mpr hsearch
    have hmem : (s, rings) ∈ (startState limits sparse query dies placement hops).results :=
      mem_startState.mpr ⟨hs, workerResult_eq_some.mpr ⟨halive, hrings⟩⟩
    exact List.ne_nil_of_mem hmem
  · exact (workerResult_eq_some.mp (mem_startState.mp hr).2).2
  · obtain ⟨r, hr, rfl⟩ := List.mem_map.mp hmem
    have hnone := of_decide_eq_true (List.mem_filter.mp hs).2
    rw [(mem_startState.mp hr).2] at hnone
    cases hnone
  · cases hworker : workerResult limits sparse query dies
      (shardEdgeData graph placement hops) s with
    | none =>
      refine .inl ⟨List.mem_filter.mpr ⟨List.mem_range.mpr hs, decide_eq_true hworker⟩, ?_⟩
      exact List.Subset.refl _
    | some rings =>
      refine .inr ⟨s, ?_, List.Subset.refl _⟩
      exact List.mem_map_of_mem (f := Prod.fst)
        (mem_startState.mpr ⟨hs, hworker⟩ : (s, rings) ∈ _)

theorem ringsUnder_survivor (hsearch : Searchable limits graph query)
    (hsurvivor : ∃ s < placement.shardCount, dies s = false) :
    ∃ outcome state, ringsUnder limits sparse dies graph placement hops query = .ok outcome ∧
      outcome.rings = mergeResults state.results ∧
      Rebalanced limits sparse query (shardEdgeData graph placement hops) placement.shardCount []
        state := by
  have hstart := @rebalanced_start limits sparse query graph placement hops dies hsearch hsurvivor
  by_cases hfailed : failedShards limits sparse query dies placement hops = []
  · refine ⟨⟨_, failedShards limits sparse query dies placement hops, placement.nodeToShard⟩,
      startState limits sparse query dies placement hops, ?_, rfl, hfailed ▸ hstart⟩
    rw [ringsUnder]
    exact if_pos hfailed
  · obtain ⟨state, hstate, hrebalanced⟩ := rebalanceFailedShards_rebalanced hsearch hstart
    refine ⟨⟨_, failedShards limits sparse query dies placement hops, state.nodeToShard⟩, state, ?_,
      rfl, hrebalanced⟩
    rw [ringsUnder]
    exact (if_neg hfailed).trans (bind_eq_ok.mpr ⟨state, hstate, rfl⟩)

/-- What a run without failures reports is inside what a run reports in which these workers die. -/
def Tolerates (limits : Limits) (sparse : SparseMatrices) (graph : Graph)
    (placement : Placement graph.edges) (hops : ℕ) (query : RingQuery) (dies : ℕ → Bool) : Prop :=
  ∀ outcome, ringsUnder limits sparse (fun _ => false) graph placement hops query = .ok outcome →
    ∃ outcome', ringsUnder limits sparse dies graph placement hops query = .ok outcome' ∧
      ∀ r ∈ outcome.rings, ∃ r' ∈ outcome'.rings, accountSet r ⊆ accountSet r'

/-- Whichever workers die, for a steady query and volumes of no negative sign one survivor is
enough. -/
theorem tolerates (hvolumes : ∀ e ∈ graph.edges, 0 ≤ e.2.totalVolume) (hquery : Steady query)
    (hsurvivor : ∃ s < placement.shardCount, dies s = false) :
    Tolerates limits sparse graph placement hops query dies := by
  intro outcome hok
  by_cases hsearch : Searchable limits graph query
  · obtain ⟨rings, hrings, hrun⟩ :=
      @ringsUnder_alive limits sparse query graph placement hops hsearch
    rw [hrun] at hok
    obtain rfl := Except.ok.inj hok
    obtain ⟨outcome', state, hok', hmerged, hstate⟩ :=
      @ringsUnder_survivor limits sparse query graph placement hops dies hsearch hsurvivor
    refine ⟨outcome', hok', fun r hr => ?_⟩
    obtain ⟨result, hresult, hring⟩ := ring_of_mem_mergeResults hr
    obtain ⟨s, hs, rfl⟩ := List.mem_map.mp hresult
    obtain ⟨t, ht, hedges⟩ :=
      (hstate.held s (List.mem_range.mp hs)).resolve_left fun h => List.not_mem_nil h.1
    obtain ⟨found, hfound, rfl⟩ := List.mem_map.mp ht
    obtain ⟨ring', hring', hsub⟩ := exists_larger_ring hquery hvolumes hedges (hrings s)
      (hstate.answered found hfound) hring
    obtain ⟨r', hr', hcovers⟩ := @mergeAll_covers _ _ _ accountSet joinShards ⟨ring', [found.1]⟩
      [] (arrivals state.results) keepsSet_joinShards
      (mem_arrivals.mpr ⟨found, hfound, hring', rfl⟩)
    exact ⟨r', hmerged ▸ mem_mergeResults.mpr hr', hsub.trans hcovers⟩
  · rw [ringsUnder_error hsearch] at hok
    cases hok

end

theorem tolerates_hub : Tolerates ⟨50000, 1000000, true⟩ .inOrder hubGraph hubPlacement 1 hubQuery
    (fun s => decide (s = 0)) :=
  tolerates (by decide +kernel) (.inl (by decide)) ⟨1, by decide +kernel, rfl⟩

/-- More accounts than the exact search takes. -/
def largeRing : List String :=
  ["a", "b", "c", "d", "e", "f", "g", "h", "i", "j", "k", "l", "m", "n", "o"]

/-- The accounts trade around, and the first one also over two accounts outside. -/
def heavyTrades : List ((String × String) × ℚ) :=
  (("a", "b"), 99) :: (largeRing.zip (largeRing.rotate 1) ++
    [("a", "x"), ("x", "y"), ("y", "a")]).map fun key => (key, 1)

def heavyGraph : Graph :=
  heavyTrades.foldl (fun graph trade => graph.addEdge trade.1.1 trade.1.2 trade.2 none) Graph.empty

def heavyPlacement : Placement heavyGraph.edges where
  nodeToShard node := some (if node = "x" ∨ node = "y" then 1 else 0)
  shardCount := 2
  shardCount_pos := Nat.two_pos
  placed node _ := by
    refine ⟨_, ?_, rfl⟩
    split_ifs <;> decide

def heavyQuery : RingQuery := ⟨1, 15, 100⟩

def reportedAccounts (run : Except GraphError Outcome) : Option (List (List String)) :=
  run.toOption.map fun outcome => outcome.rings.map fun r => r.ring.accounts

/-- The approximation finds the heavy edge in the ring of the first shard. With the edges of the
second one the ring is truncated, and half of its volume is too low. -/
theorem heavy_not_tolerated : ¬Tolerates ⟨50000, 1000000, true⟩ .inOrder heavyGraph heavyPlacement 0
    heavyQuery (fun s => decide (s = 1)) := by
  have hbefore : reportedAccounts (ringsUnder ⟨50000, 1000000, true⟩ .inOrder (fun _ => false)
      heavyGraph heavyPlacement 0 heavyQuery) = some [largeRing] := by decide +kernel
  have hafter : reportedAccounts (ringsUnder ⟨50000, 1000000, true⟩ .inOrder
      (fun s => decide (s = 1)) heavyGraph heavyPlacement 0 heavyQuery) = some [] := by
    decide +kernel
  intro h
  cases hrun : ringsUnder ⟨50000, 1000000, true⟩ .inOrder (fun _ => false) heavyGraph
      heavyPlacement 0 heavyQuery with
  | error e => rw [hrun] at hbefore; cases hbefore
  | ok outcome =>
    obtain ⟨outcome', hrun', hcovers⟩ := h outcome hrun
    rw [hrun, reportedAccounts, Except.toOption, Option.map_some] at hbefore
    rw [hrun', reportedAccounts, Except.toOption, Option.map_some] at hafter
    have hring : largeRing ∈ outcome.rings.map fun r => r.ring.accounts :=
      (Option.some.inj hbefore).symm ▸ List.mem_singleton_self largeRing
    obtain ⟨r, hr, -⟩ := List.mem_map.mp hring
    obtain ⟨r', hr', -⟩ := hcovers r hr
    rw [List.map_eq_nil_iff.mp (Option.some.inj hafter)] at hr'
    exact List.not_mem_nil hr'

end ShardFailures
