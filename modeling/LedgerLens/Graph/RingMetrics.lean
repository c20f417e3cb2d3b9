import LedgerLens.Graph.ApproxBottleneckCycle
import Mathlib.Algebra.Order.Ring.Rat
import Mathlib.Data.Finset.Sort
import Mathlib.Data.Prod.Lex
import Mathlib.Data.String.Basic

/-!
# Ring metrics

What `detection/graph_engine.py` computes of one strongly connected component. Volumes and times
are exact rationals. The standard deviation `timing_tightness` is kept as its square, the
population variance.
-/
namespace RingMetrics

open ApproxBottleneckCycle BottleneckCycle SimpleCycles StrongComponents

/-- `[total_volume, trade_count, timestamps]`. -/
structure EdgeData where
  totalVolume : ℚ
  tradeCount : ℕ
  timestamps : List ℚ
  deriving DecidableEq

/-- The dictionary from `(base, counter)` to the data of the edge, in insertion order. -/
abbrev EdgeDict := List ((String × String) × EdgeData)

theorem keys_nodup_nil : (([] : EdgeDict).map Prod.fst).Nodup := .nil

def inside (accounts : List String) (edges : EdgeDict) : EdgeDict :=
  edges.filter fun e => decide (e.1.1 ∈ accounts ∧ e.1.2 ∈ accounts)

def totalVolume (edges : EdgeDict) : ℚ := (edges.map fun e => e.2.totalVolume).sum

def avgTradeCount (edges : EdgeDict) : ℚ :=
  if edges = [] then 0 else (edges.map fun e => (e.2.tradeCount : ℚ)).sum / edges.length

/-- The square of `statistics.pstdev`. -/
def pvariance (data : List ℚ) : ℚ :=
  (data.map fun x => (x - data.sum / data.length) ^ 2).sum / data.length

def timingVariance (edges : EdgeDict) : ℚ :=
  let timestamps := (edges.flatMap fun e => e.2.timestamps).insertionSort (· ≤ ·)
  if timestamps.length < 2 then 0
  else pvariance (List.zipWith (fun a b => b - a) timestamps timestamps.tail)

def maxExactCycleVolumeNodes : ℕ := 14

/-- The nodes are the positions of the accounts. Self-loops are left out. -/
def cycleAdjacency (accounts : List String) (edges : EdgeDict) : Adjacency ℚ :=
  accounts.map fun u => edges.filterMap fun e =>
    if e.1.1 = u ∧ e.1.2 ≠ u then (accounts.idxOf? e.1.2).map fun j => (j, e.2.totalVolume)
    else none

/-- `_cycle_volume` of the subgraph on the accounts, which are sorted. -/
def cycleVolume (accounts : List String) (edges : EdgeDict) (minRingSize : ℕ) : ℚ :=
  if accounts.length < 2 ∨ accounts.length < minRingSize then 0
  else if maxExactCycleVolumeNodes < accounts.length then
    approxMaxBottleneckCycle (cycleAdjacency accounts edges) minRingSize
  else maxBottleneckCycle (cycleAdjacency accounts edges) accounts.length minRingSize

structure Ring where
  accounts : List String
  totalVolume : ℚ
  cycleVolume : ℚ
  avgTradeCount : ℚ
  timingVariance : ℚ
  truncated : Bool
  deriving DecidableEq

/-- The arguments of `find_wash_rings`. -/
structure RingQuery where
  minRingSize : ℕ
  maxRingSize : ℕ
  minCycleVolume : ℚ
  deriving DecidableEq

/-- One pass of the loop over the components: the ring of the sorted accounts, unless it is too
small or its cycle volume too low. -/
def sccRing (query : RingQuery) (accounts : List String) (edges : EdgeDict) : Option Ring :=
  if accounts.length < query.minRingSize then none
  else
    let inner := inside accounts edges
    if query.maxRingSize < accounts.length then
      let volume := totalVolume inner * (1 / 2)
      if volume < query.minCycleVolume then none
      else some ⟨accounts, totalVolume inner, volume, avgTradeCount inner,
        timingVariance inner, true⟩
    else
      let volume := cycleVolume accounts inner query.minRingSize
      if volume < query.minCycleVolume then none
      else some ⟨accounts, totalVolume inner, volume, avgTradeCount inner,
        timingVariance inner, false⟩

/-- The descending order of the results. -/
def ByVolume (ring ring' : Ring) : Prop :=
  toLex (ring'.totalVolume, ring'.cycleVolume) ≤ toLex (ring.totalVolume, ring.cycleVolume)

instance : DecidableRel ByVolume := fun _ _ => by unfold ByVolume; infer_instance

def ringOf (query : RingQuery) (accounts : List String) (edges : EdgeDict) : Ring where
  accounts := accounts
  totalVolume := totalVolume (inside accounts edges)
  cycleVolume :=
    if query.maxRingSize < accounts.length then totalVolume (inside accounts edges) * (1 / 2)
    else cycleVolume accounts (inside accounts edges) query.minRingSize
  avgTradeCount := avgTradeCount (inside accounts edges)
  timingVariance := timingVariance (inside accounts edges)
  truncated := decide (query.maxRingSize < accounts.length)

section

variable {query : RingQuery} {accounts : List String} {edges edges' : EdgeDict} {ring : Ring}
  {c : ℚ} {u v : String}

theorem mem_inside {e : (String × String) × EdgeData} :
    e ∈ inside accounts edges ↔ e ∈ edges ∧ e.1.1 ∈ accounts ∧ e.1.2 ∈ accounts := by
  rw [inside, List.mem_filter, decide_eq_true_eq]

theorem sccRing_eq_some :
    sccRing query accounts edges = some ring ↔ ringOf query accounts edges = ring ∧
      query.minRingSize ≤ ring.accounts.length ∧ query.minCycleVolume ≤ ring.cycleVolume := by
  have hring (hsize : ¬ accounts.length < query.minRingSize) :
      sccRing query accounts edges =
        if (ringOf query accounts edges).cycleVolume < query.minCycleVolume then none
        else some (ringOf query accounts edges) := by
    unfold sccRing ringOf
    rw [if_neg hsize]
    by_cases hlarge : query.maxRingSize < accounts.length
    · simp only [hlarge, if_true, decide_true]
    · simp only [hlarge, if_false, decide_false]
  by_cases hsize : accounts.length < query.minRingSize
  · rw [sccRing, if_pos hsize]
    refine iff_of_false nofun ?_
    rintro ⟨rfl, hle, -⟩
    exact absurd hle (not_le.mpr hsize)
  · rw [hring hsize]
    split_ifs with hlow
    · refine iff_of_false nofun ?_
      rintro ⟨rfl, -, hle⟩
      exact absurd hle (not_le.mpr hlow)
    · rw [Option.some.injEq]
      refine ⟨?_, And.left⟩
      rintro rfl
      exact ⟨rfl, not_lt.mp hsize, not_lt.mp hlow⟩

/-- An edge between two different accounts with at least the given volume. -/
def HeavyEdge (edges : EdgeDict) (c : ℚ) (u v : String) : Prop :=
  u ≠ v ∧ ∃ data, ((u, v), data) ∈ edges ∧ c ≤ data.totalVolume

theorem edgeAtLeast_iff {i j : ℕ} :
    EdgeAtLeast (cycleAdjacency accounts edges) c i j ↔
      ∃ u v, accounts[i]? = some u ∧ accounts.idxOf? v = some j ∧ HeavyEdge edges c u v := by
  have hrow : edgesFrom (cycleAdjacency accounts edges) i = (accounts[i]?.map fun u =>
      edges.filterMap fun e => if e.1.1 = u ∧ e.1.2 ≠ u then
        (accounts.idxOf? e.1.2).map fun j => (j, e.2.totalVolume) else none).getD [] := by
    rw [edgesFrom, cycleAdjacency, List.getD_eq_getElem?_getD, List.getElem?_map]
  unfold EdgeAtLeast
  rw [hrow]
  cases hu : accounts[i]? with
  | none => simp
  | some u =>
    rw [Option.map_some, Option.getD_some]
    constructor
    · rintro ⟨weight, hmem, hweight⟩
      obtain ⟨⟨⟨b, v⟩, data⟩, hedge, he⟩ := List.mem_filterMap.mp hmem
      split_ifs at he with hends
      obtain ⟨rfl, hne⟩ := hends
      obtain ⟨_, hj, heq⟩ := Option.map_eq_some_iff.mp he
      obtain ⟨rfl, rfl⟩ := Prod.mk.inj heq
      exact ⟨b, v, rfl, hj, Ne.symm hne, data, hedge, hweight⟩
    · rintro ⟨u', v, hu', hj, hne, data, hedge, hweight⟩
      obtain rfl := Option.some.inj hu'
      refine ⟨data.totalVolume, List.mem_filterMap.mpr ⟨_, hedge, ?_⟩, hweight⟩
      rw [if_pos ⟨rfl, Ne.symm hne⟩, hj, Option.map_some]

theorem idxOf?_eq_some_idxOf (hv : v ∈ accounts) : accounts.idxOf? v = some (accounts.idxOf v) := by
  rw [List.idxOf?, List.findIdx?_eq_some_iff_findIdx_eq]
  exact ⟨List.idxOf_lt_length_of_mem hv, rfl⟩

theorem getD_inj {i j : ℕ} (hnodup : accounts.Nodup) (hi : i < accounts.length)
    (hj : j < accounts.length) : accounts.getD i "" = accounts.getD j "" ↔ i = j := by
  rw [List.getD_eq_getElem _ _ hi, List.getD_eq_getElem _ _ hj, hnodup.getElem_inj_iff]

theorem HeavyEdge.mono (hsub : edges ⊆ edges') (h : HeavyEdge edges c u v) :
    HeavyEdge edges' c u v := by
  obtain ⟨hne, data, hmem, hvolume⟩ := h
  exact ⟨hne, data, hsub hmem, hvolume⟩

theorem heavyEdge_getD {i j : ℕ} (h : EdgeAtLeast (cycleAdjacency accounts edges) c i j) :
    i < accounts.length ∧ j < accounts.length ∧
      HeavyEdge edges c (accounts.getD i "") (accounts.getD j "") := by
  obtain ⟨u, v, hi, hj, hedge⟩ := edgeAtLeast_iff.mp h
  obtain ⟨hlt, rfl⟩ := List.getElem?_eq_some_iff.mp hi
  obtain ⟨hlt', rfl, -⟩ := List.idxOf?_eq_some_iff.mp hj
  rw [List.getD_eq_getElem _ _ hlt, List.getD_eq_getElem _ _ hlt']
  exact ⟨hlt, hlt', hedge⟩

theorem edgeAtLeast_idxOf (hu : u ∈ accounts) (hv : v ∈ accounts) (h : HeavyEdge edges c u v) :
    EdgeAtLeast (cycleAdjacency accounts edges) c (accounts.idxOf u) (accounts.idxOf v) :=
  edgeAtLeast_iff.mpr ⟨u, v, List.getElem?_idxOf hu, idxOf?_eq_some_idxOf hv, h⟩

theorem cycleVolume_nonneg {minRingSize : ℕ} (hvolumes : ∀ e ∈ edges, 0 ≤ e.2.totalVolume) :
    0 ≤ cycleVolume accounts edges minRingSize := by
  unfold cycleVolume
  split_ifs
  · exact le_rfl
  · refine approxMaxBottleneckCycle_nonneg fun i j w hmem => ?_
    have hedge : EdgeAtLeast (cycleAdjacency accounts edges) w i j := ⟨w, hmem, le_rfl⟩
    rw [edgesFrom, cycleAdjacency, List.getD_eq_getElem?_getD, List.getElem?_map] at hmem
    obtain ⟨u, -, hu, -⟩ := edgeAtLeast_iff.mp hedge
    rw [hu, Option.map_some, Option.getD_some] at hmem
    obtain ⟨e, he, heq⟩ := List.mem_filterMap.mp hmem
    split_ifs at heq
    obtain ⟨_, -, hpair⟩ := Option.map_eq_some_iff.mp heq
    exact (Prod.mk.inj hpair).2 ▸ hvolumes e he
  · exact (le_maxBottleneckCycle_iff_path fun _ _ h => (heavyEdge_getD h).2.1).mpr (.inl le_rfl)

theorem totalVolume_nonneg (hvolumes : ∀ e ∈ edges, 0 ≤ e.2.totalVolume) : 0 ≤ totalVolume edges :=
  List.sum_nonneg fun w hw => by
    obtain ⟨e, he, rfl⟩ := List.mem_map.mp hw
    exact hvolumes e he

theorem ringOf_cycleVolume_nonneg (hvolumes : ∀ e ∈ edges, 0 ≤ e.2.totalVolume) :
    0 ≤ (ringOf query accounts edges).cycleVolume := by
  have hinner (e : (String × String) × EdgeData) (he : e ∈ inside accounts edges) :
      0 ≤ e.2.totalVolume := hvolumes e (mem_inside.mp he).1
  simp only [ringOf]
  split_ifs
  · exact mul_nonneg (totalVolume_nonneg hinner) (one_div_nonneg.mpr two_pos.le)
  · exact cycleVolume_nonneg hinner

section

variable (hnodup : accounts.Nodup) (hinner : ∀ e ∈ edges, e.1.1 ∈ accounts ∧ e.1.2 ∈ accounts)
include hinner

theorem HeavyEdge.edgeAtLeast (h : HeavyEdge edges c u v) :
    EdgeAtLeast (cycleAdjacency accounts edges) c (accounts.idxOf u) (accounts.idxOf v) := by
  have ⟨_, _, hmem, _⟩ := h
  exact edgeAtLeast_idxOf (hinner _ hmem).1 (hinner _ hmem).2 h

theorem HeavyEdge.mem_accounts (h : HeavyEdge edges c u v ∨ HeavyEdge edges c v u) :
    u ∈ accounts := by
  rcases h with ⟨-, data, hmem, -⟩ | ⟨-, data, hmem, -⟩
  · exact (hinner _ hmem).1
  · exact (hinner _ hmem).2

include hnodup

theorem le_maxBottleneckCycle_iff_heavy {minRingSize : ℕ} (hc : 0 < c) :
    c ≤ maxBottleneckCycle (cycleAdjacency accounts edges) accounts.length minRingSize ↔
      ∃ l, SimpleCycle (HeavyEdge edges c) l ∧ 2 ≤ l.length ∧ minRingSize ≤ l.length := by
  rw [le_maxBottleneckCycle_iff hc fun _ _ h => (heavyEdge_getD h).2.1]
  constructor
  · rintro ⟨l, hl, hlong⟩
    have hlt (i : ℕ) (hi : i ∈ l) : i < accounts.length :=
      (hl.exists_edge hi).elim fun _ h => (heavyEdge_getD h).1
    refine ⟨_, hl.map (fun i => accounts.getD i "") ?_ fun _ _ h => (heavyEdge_getD h).2.2, ?_⟩
    · intro i hi j hj heq
      exact (getD_inj hnodup (hlt i hi) (hlt j hj)).mp heq
    · rwa [List.length_map]
  · rintro ⟨l, hl, hlong⟩
    refine ⟨_, hl.map accounts.idxOf ?_ fun _ _ h => h.edgeAtLeast hinner, ?_⟩
    · intro u hu v hv heq
      obtain ⟨w, hw⟩ := hl.exists_edge hu
      exact (List.idxOf_inj (HeavyEdge.mem_accounts hinner (.inl hw))).mp heq
    · rwa [List.length_map]

theorem le_approxMaxBottleneckCycle_iff_heavy {minRingSize : ℕ} (hc : 0 < c) :
    c ≤ approxMaxBottleneckCycle (cycleAdjacency accounts edges) minRingSize ↔
      ∃ l, Cluster (HeavyEdge edges c) minRingSize l := by
  rw [le_approxMaxBottleneckCycle_iff hc]
  constructor
  · rintro ⟨l, hl⟩
    have hlt (i : ℕ) (hi : i ∈ l) : i < accounts.length := by
      obtain ⟨j, h | h⟩ := hl.touched_of_mem hi
      · exact (heavyEdge_getD h).1
      · exact (heavyEdge_getD h).2.1
    refine ⟨_, hl.map (fun i => accounts.getD i "") ?_ fun _ _ h => (heavyEdge_getD h).2.2⟩
    intro i hi j hj heq
    exact (getD_inj hnodup (hlt i hi) (hlt j hj)).mp heq
  · rintro ⟨l, hl⟩
    refine ⟨_, hl.map accounts.idxOf ?_ fun _ _ h => h.edgeAtLeast hinner⟩
    intro u hu v hv heq
    obtain ⟨w, hw⟩ := hl.touched_of_mem hu
    exact (List.idxOf_inj (HeavyEdge.mem_accounts hinner hw)).mp heq

/-- A cycle volume over a positive threshold is a long enough simple cycle of heavy edges or, for
more accounts than the exact search takes, a large enough cluster. -/
theorem le_cycleVolume_iff {minRingSize : ℕ} (hc : 0 < c) :
    c ≤ cycleVolume accounts edges minRingSize ↔
      if maxExactCycleVolumeNodes < accounts.length then
        ∃ l, Cluster (HeavyEdge edges c) minRingSize l
      else ∃ l, SimpleCycle (HeavyEdge edges c) l ∧ 2 ≤ l.length ∧ minRingSize ≤ l.length := by
  have hle {l : List String} (hl : l.Nodup) (hmem : ∀ u ∈ l, u ∈ accounts) :
      l.length ≤ accounts.length := (hl.subperm hmem).length_le
  unfold cycleVolume
  split_ifs with hsmall hmany hmany
  · refine iff_of_false (not_le.mpr hc) ?_
    rintro ⟨l, hl⟩
    have := hle hl.nodup fun u hu =>
      (hl.touched_of_mem hu).elim fun _ hw => HeavyEdge.mem_accounts hinner hw
    have := hl.large
    rw [maxExactCycleVolumeNodes] at hmany
    omega
  · refine iff_of_false (not_le.mpr hc) ?_
    rintro ⟨l, hl, htwo, hlong⟩
    have := hle hl.nodup fun u hu =>
      (hl.exists_edge hu).elim fun _ hw => HeavyEdge.mem_accounts hinner (.inl hw)
    omega
  · exact le_approxMaxBottleneckCycle_iff_heavy hnodup hinner hc
  · exact le_maxBottleneckCycle_iff_heavy hnodup hinner hc

end

end

end RingMetrics
