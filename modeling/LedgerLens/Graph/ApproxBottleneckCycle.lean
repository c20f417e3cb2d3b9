import LedgerLens.Graph.BottleneckCycle
import LedgerLens.Graph.TarjanScc
import Mathlib.Data.List.Sort

/-!
# Approximate bottleneck cycles

`_approx_max_bottleneck_cycle` of `detection/graph_engine.py`: the largest weight such that the
edges of at least that weight keep a large enough component. It is never below the exact value.
-/
namespace ApproxBottleneckCycle

open BottleneckCycle SimpleCycles StrongComponents

variable {W : Type*} [LinearOrder W]

/-- The adjacency dictionary of the edges with at least the given weight, keys in rising order. -/
def thresholdGraph (adjacency : Adjacency W) (threshold : W) : List (ℕ × List ℕ) :=
  TarjanScc.rowGraph adjacency.length fun u =>
    ((edgesFrom adjacency u).filter fun e => decide (threshold ≤ e.2)).map Prod.fst

def hasSccAtLeast (adjacency : Adjacency W) (minRingSize : ℕ) (threshold : W) : Bool :=
  (TarjanScc.run (thresholdGraph adjacency threshold)).any fun c =>
    decide (minRingSize ≤ c.length)

/-- The binary search of the weights for the last that passes; `hi` is one more than in the
source. -/
def searchThreshold (weights : List W) (passes : W → Bool) : ℕ → ℕ → ℕ → W → W
  | 0, _, _, best => best
  | fuel + 1, lo, hi, best =>
    if lo < hi then
      match weights[(lo + (hi - 1)) / 2]? with
      | none => best
      | some w =>
        if passes w then searchThreshold weights passes fuel ((lo + (hi - 1)) / 2 + 1) hi w
        else searchThreshold weights passes fuel lo ((lo + (hi - 1)) / 2) best
    else best

/-- `sorted({weight …})`. -/
def distinctWeights (adjacency : Adjacency W) : List W :=
  (adjacency.flatMap fun edges => edges.map Prod.snd).dedup.insertionSort (· ≤ ·)

def approxMaxBottleneckCycle [Zero W] (adjacency : Adjacency W) (minRingSize : ℕ) : W :=
  let weights := distinctWeights adjacency
  searchThreshold weights (hasSccAtLeast adjacency minRingSize) weights.length 0 weights.length 0

section

variable {adjacency : Adjacency W} {c d : W} {minRingSize : ℕ} {u v : ℕ}

theorem EdgeAtLeast.lt_length (h : EdgeAtLeast adjacency c u v) : u < adjacency.length := by
  obtain ⟨weight, hedge, -⟩ := h
  by_contra hge
  rw [edgesFrom, List.getD_eq_default _ _ (not_lt.mp hge)] at hedge
  exact absurd hedge List.not_mem_nil

theorem mem_neighbours_thresholdGraph :
    v ∈ TarjanScc.neighbours (thresholdGraph adjacency c) u ↔ EdgeAtLeast adjacency c u v := by
  rw [thresholdGraph, TarjanScc.mem_neighbours_rowGraph]
  constructor
  · rintro ⟨-, hv⟩
    obtain ⟨⟨_, weight⟩, hedge, rfl⟩ := List.mem_map.mp hv
    obtain ⟨hedge, hweight⟩ := List.mem_filter.mp hedge
    exact ⟨weight, hedge, of_decide_eq_true hweight⟩
  · intro h
    obtain ⟨weight, hedge, hweight⟩ := id h
    exact ⟨EdgeAtLeast.lt_length h, List.mem_map_of_mem (f := Prod.fst)
      (List.mem_filter.mpr ⟨hedge, decide_eq_true hweight⟩)⟩

theorem edge_thresholdGraph :
    TarjanScc.Edge (TarjanScc.neighbours (thresholdGraph adjacency c)) =
      EdgeAtLeast adjacency c := by
  funext u v
  exact propext mem_neighbours_thresholdGraph

theorem mem_run_thresholdGraph :
    v ∈ (TarjanScc.run (thresholdGraph adjacency c)).flatten ↔
      ∃ w, EdgeAtLeast adjacency c v w ∨ EdgeAtLeast adjacency c w v := by
  rw [TarjanScc.mem_run]
  simp only [mem_neighbours_thresholdGraph]
  constructor
  · rintro (hkey | ⟨u, hu⟩)
    · obtain ⟨w, hw⟩ := TarjanScc.exists_neighbour_of_key hkey
      exact ⟨w, .inl (mem_neighbours_thresholdGraph.mp hw)⟩
    · exact ⟨u, .inr hu⟩
  · rintro ⟨w, hw | hw⟩
    · exact .inl (TarjanScc.key_of_edge (mem_neighbours_thresholdGraph.mpr hw))
    · exact .inr ⟨w, hw⟩

theorem hasSccAtLeast_iff :
    hasSccAtLeast adjacency minRingSize c = true ↔
      ∃ l, Cluster (EdgeAtLeast adjacency c) minRingSize l := by
  have hcomps := TarjanScc.run_components (thresholdGraph adjacency c)
  rw [edge_thresholdGraph] at hcomps
  rw [hasSccAtLeast, List.any_eq_true]
  constructor
  · rintro ⟨l, hl, hlarge⟩
    refine ⟨l, hcomps.nodup_of_mem hl, of_decide_eq_true hlarge,
      fun u hu v hv => (hcomps.together l hl u hu v).mp hv, ?_⟩
    obtain ⟨u, hu⟩ := List.exists_mem_of_ne_nil l (hcomps.nonempty l hl)
    exact ⟨u, hu, mem_run_thresholdGraph.mp (List.mem_flatten.mpr ⟨l, hl, hu⟩)⟩
  · rintro ⟨l, hl⟩
    obtain ⟨u, hu, htouched⟩ := hl.touched
    obtain ⟨comp, hcomp, hmem⟩ := List.mem_flatten.mp (mem_run_thresholdGraph.mpr htouched)
    have hsub : l ⊆ comp :=
      fun v hv => (hcomps.together comp hcomp u hmem v).mpr (hl.linked u hu v hv)
    exact ⟨comp, hcomp, decide_eq_true (hl.large.trans (hl.nodup.subperm hsub).length_le)⟩

theorem EdgeAtLeast.anti (hd : d ≤ c) (h : EdgeAtLeast adjacency c u v) :
    EdgeAtLeast adjacency d u v := by
  obtain ⟨weight, hedge, hweight⟩ := h
  exact ⟨weight, hedge, hd.trans hweight⟩

theorem hasSccAtLeast_anti (hd : d ≤ c) (h : hasSccAtLeast adjacency minRingSize c = true) :
    hasSccAtLeast adjacency minRingSize d = true := by
  rw [hasSccAtLeast_iff] at h ⊢
  obtain ⟨l, hl⟩ := h
  exact ⟨l, hl.mono fun _ _ => EdgeAtLeast.anti hd⟩

/-- The search reaches `c` where the best so far does or a weight in the interval passes. -/
theorem le_searchThreshold_iff {weights : List W} {passes : W → Bool}
    (hsorted : weights.Pairwise (· ≤ ·))
    (hpasses : ∀ w w', w' ≤ w → passes w = true → passes w' = true) (fuel lo hi : ℕ) (best : W)
    (hfuel : hi - lo ≤ fuel) (hhi : hi ≤ weights.length)
    (hbest : c ≤ best → ∀ i w, lo ≤ i → i < hi → weights[i]? = some w → best ≤ w) :
    c ≤ searchThreshold weights passes fuel lo hi best ↔ c ≤ best ∨
      ∃ i w, (lo ≤ i ∧ i < hi) ∧ weights[i]? = some w ∧ passes w = true ∧ c ≤ w := by
  have mono {i j : ℕ} {w w' : W} (hij : i ≤ j) (hi : weights[i]? = some w)
      (hj : weights[j]? = some w') : w ≤ w' := by
    rcases Nat.lt_or_eq_of_le hij with hlt | rfl
    · obtain ⟨hilen, rfl⟩ := List.getElem?_eq_some_iff.mp hi
      obtain ⟨hjlen, rfl⟩ := List.getElem?_eq_some_iff.mp hj
      exact List.pairwise_iff_getElem.mp hsorted i j hilen hjlen hlt
    · exact (Option.some.inj (hi.symm.trans hj)).le
  induction fuel generalizing lo hi best with
  | zero =>
    refine (or_iff_left ?_).symm
    rintro ⟨i, w, ⟨hlo, hlt⟩, -⟩
    omega
  | succ fuel ih =>
    rw [searchThreshold]
    split_ifs with hlt
    swap
    · refine (or_iff_left ?_).symm
      rintro ⟨i, w, ⟨hlo, hlt'⟩, -⟩
      omega
    have hmid : (lo + (hi - 1)) / 2 < weights.length := by omega
    rw [List.getElem?_eq_getElem hmid]
    have hget := List.getElem?_eq_getElem hmid
    generalize weights[(lo + (hi - 1)) / 2] = m at hget
    simp only
    split_ifs with hpass
    · have hupper := ih ((lo + (hi - 1)) / 2 + 1) hi m (by omega) hhi
        fun _ i w hi _ hw => mono (by omega) hget hw
      refine hupper.trans ⟨?_, ?_⟩
      · rintro (hm | ⟨i, w, hrange, hw⟩)
        · exact .inr ⟨_, m, by omega, hget, hpass, hm⟩
        · exact .inr ⟨i, w, by omega, hw⟩
      · rintro (hc | ⟨i, w, hrange, hw, hpassw, hcw⟩)
        · exact .inl (hc.trans (hbest hc _ m (by omega) (by omega) hget))
        · rcases Nat.lt_or_ge ((lo + (hi - 1)) / 2) i with hlt | hge
          · exact .inr ⟨i, w, by omega, hw, hpassw, hcw⟩
          · exact .inl (hcw.trans (mono hge hw hget))
    · have hlower := ih lo ((lo + (hi - 1)) / 2) best (by omega) (by omega)
        fun hc i w hi hlt => hbest hc i w hi (by omega)
      refine hlower.trans (or_congr_right ⟨?_, ?_⟩)
      · rintro ⟨i, w, hrange, hw⟩
        exact ⟨i, w, by omega, hw⟩
      · rintro ⟨i, w, hrange, hw, hpassw, hcw⟩
        refine ⟨i, w, ⟨hrange.1, ?_⟩, hw, hpassw, hcw⟩
        -- A weight beyond the middle would let the middle pass.
        exact lt_of_not_ge fun hge => hpass (hpasses w m (mono hge hget hw) hpassw)

theorem mem_distinctWeights {w : W} :
    w ∈ distinctWeights adjacency ↔ ∃ u v, (v, w) ∈ edgesFrom adjacency u := by
  rw [distinctWeights, List.mem_insertionSort, List.mem_dedup, List.mem_flatMap]
  constructor
  · rintro ⟨edges, hedges, hw⟩
    obtain ⟨⟨v, _⟩, hmem, rfl⟩ := List.mem_map.mp hw
    obtain ⟨u, hu, rfl⟩ := List.mem_iff_getElem.mp hedges
    exact ⟨u, v, by rwa [edgesFrom, List.getD_eq_getElem _ _ hu]⟩
  · rintro ⟨u, v, hmem⟩
    have hu : u < adjacency.length := EdgeAtLeast.lt_length ⟨w, hmem, le_rfl⟩
    rw [edgesFrom, List.getD_eq_getElem _ _ hu] at hmem
    exact ⟨_, List.getElem_mem hu, List.mem_map_of_mem (f := Prod.snd) hmem⟩

theorem le_approx_iff_weight [Zero W] (hc : 0 < c) :
    c ≤ approxMaxBottleneckCycle adjacency minRingSize ↔
      ∃ w ∈ distinctWeights adjacency, hasSccAtLeast adjacency minRingSize w = true ∧ c ≤ w := by
  have hsorted : (distinctWeights adjacency).Pairwise (· ≤ ·) := List.pairwise_insertionSort _ _
  rw [approxMaxBottleneckCycle, le_searchThreshold_iff hsorted
    (fun _ _ hle h => hasSccAtLeast_anti hle h) _ _ _ _ (by omega) le_rfl
    (fun h => absurd h (not_le.mpr hc)), or_iff_right (not_le.mpr hc)]
  constructor
  · rintro ⟨i, w, -, hget, hpass, hcw⟩
    exact ⟨w, List.mem_of_getElem? hget, hpass, hcw⟩
  · rintro ⟨w, hmem, hpass, hcw⟩
    obtain ⟨i, hi, hget⟩ := List.mem_iff_getElem.mp hmem
    exact ⟨i, w, ⟨Nat.zero_le i, hi⟩, List.getElem?_eq_some_iff.mpr ⟨hi, hget⟩, hpass, hcw⟩

/-- The approximation reaches a positive threshold exactly where a large enough component does. -/
theorem le_approxMaxBottleneckCycle_iff [Zero W] (hc : 0 < c) :
    c ≤ approxMaxBottleneckCycle adjacency minRingSize ↔
      ∃ l, Cluster (EdgeAtLeast adjacency c) minRingSize l := by
  rw [le_approx_iff_weight hc]
  constructor
  · rintro ⟨w, -, hpass, hcw⟩
    exact hasSccAtLeast_iff.mp (hasSccAtLeast_anti hcw hpass)
  · rintro ⟨l, hl⟩
    -- The least weight over the threshold leaves the same edges.
    obtain ⟨a, b, weight, hedge, hweight⟩ := hl.exists_edge
    have hne : ((distinctWeights adjacency).filter fun w => decide (c ≤ w)).toFinset.Nonempty :=
      ⟨weight, List.mem_toFinset.mpr (List.mem_filter.mpr
        ⟨mem_distinctWeights.mpr ⟨a, b, hedge⟩, decide_eq_true hweight⟩)⟩
    have hleast := Finset.min'_mem _ hne
    obtain ⟨hmem, hle⟩ := List.mem_filter.mp (List.mem_toFinset.mp hleast)
    refine ⟨_, hmem, ?_, of_decide_eq_true hle⟩
    refine hasSccAtLeast_iff.mpr ⟨l, hl.mono ?_⟩
    rintro u v ⟨weight, hedge, hweight⟩
    refine ⟨weight, hedge, Finset.min'_le _ _ ?_⟩
    exact List.mem_toFinset.mpr (List.mem_filter.mpr
      ⟨mem_distinctWeights.mpr ⟨u, v, hedge⟩, decide_eq_true hweight⟩)

theorem le_approx_of_le_max [Zero W] {n : ℕ} (hc : 0 < c)
    (hedges : ∀ u v, EdgeAtLeast adjacency c u v → v < n)
    (h : c ≤ maxBottleneckCycle adjacency n minRingSize) :
    c ≤ approxMaxBottleneckCycle adjacency minRingSize := by
  obtain ⟨l, hl, htwo, hlong⟩ := (le_maxBottleneckCycle_iff hc hedges).mp h
  exact (le_approxMaxBottleneckCycle_iff hc).mpr
    ⟨l, hl.cluster (SimpleCycle.ne_nil_of_two_le htwo) hlong⟩

omit [LinearOrder W] in
theorem searchThreshold_mem {weights : List W} {passes : W → Bool} (fuel lo hi : ℕ) (best : W) :
    searchThreshold weights passes fuel lo hi best = best ∨
      searchThreshold weights passes fuel lo hi best ∈ weights := by
  induction fuel generalizing lo hi best with
  | zero => exact .inl rfl
  | succ fuel ih =>
    rw [searchThreshold]
    split_ifs with hlt
    swap
    · exact .inl rfl
    split
    · exact .inl rfl
    · rename_i w hw
      split_ifs with hpass
      · refine .inr ((ih _ _ _).elim (fun h => ?_) id)
        rw [h]
        exact List.mem_of_getElem? hw
      · exact ih _ _ _

theorem approxMaxBottleneckCycle_nonneg [Zero W]
    (hweights : ∀ u v w, (v, w) ∈ edgesFrom adjacency u → 0 ≤ w) :
    0 ≤ approxMaxBottleneckCycle adjacency minRingSize := by
  have hcases : approxMaxBottleneckCycle adjacency minRingSize = 0 ∨
      approxMaxBottleneckCycle adjacency minRingSize ∈ distinctWeights adjacency :=
    searchThreshold_mem _ _ _ _
  rcases hcases with h | h
  · exact h.ge
  · obtain ⟨u, v, hmem⟩ := mem_distinctWeights.mp h
    exact hweights u v _ hmem

end

example : approxMaxBottleneckCycle [[(1, 3)], [(2, 5), (0, 4)], [(0, 2)]] 2 = 3 := by decide

end ApproxBottleneckCycle
