import LedgerLens.Graph.ApproxBottleneckCycle
import LedgerLens.FallibleRuns

/-!
# What the bottleneck searches compute

The exact search and the approximation against the least weights of the simple cycles of the
graph. Where there are none, both are 0.
-/
namespace BottleneckValues

open ApproxBottleneckCycle BottleneckCycle SimpleCycles StrongComponents WhileLoops

section

variable {W : Type*} [LinearOrder W] [Zero W] {S : Set W} {r : W}

/-- A value that reaches the same positive thresholds as the members of a set is the greatest of
them. -/
theorem isGreatest_of_thresholds (hr : 0 ≤ r) (hS : ∀ b ∈ S, 0 ≤ b)
    (h : ∀ c, 0 < c → (c ≤ r ↔ ∃ b ∈ S, c ≤ b)) (hne : S.Nonempty) : IsGreatest S r := by
  have hupper : ∀ b ∈ S, b ≤ r := by
    intro b hb
    rcases (hS b hb).lt_or_eq with hpos | rfl
    · exact (h b hpos).mpr ⟨b, hb, le_rfl⟩
    · exact hr
  refine ⟨?_, hupper⟩
  rcases hr.lt_or_eq with hpos | rfl
  · obtain ⟨b, hb, hle⟩ := (h r hpos).mp le_rfl
    exact le_antisymm hle (hupper b hb) ▸ hb
  · obtain ⟨b, hb⟩ := hne
    exact le_antisymm (hS b hb) (hupper b hb) ▸ hb

theorem eq_zero_of_thresholds (hr : 0 ≤ r) (h : ∀ c, 0 < c → (c ≤ r ↔ ∃ b ∈ S, c ≤ b))
    (hne : ¬ S.Nonempty) : r = 0 := by
  rcases hr.lt_or_eq with hpos | heq
  · obtain ⟨b, hb, -⟩ := (h r hpos).mp le_rfl
    exact absurd ⟨b, hb⟩ hne
  · exact heq.symm

end

section

variable {W : Type*} [LinearOrder W] {adjacency : Adjacency W} {l : List ℕ} {b c : W}

structure Digraph [Zero W] (adjacency : Adjacency W) : Prop where
  target_lt : ∀ u, ∀ e ∈ edgesFrom adjacency u, e.1 < adjacency.length
  weight_nonneg : ∀ u, ∀ e ∈ edgesFrom adjacency u, 0 ≤ e.2

/-- `b` is the smallest weight on a simple cycle through the nodes of `l` in their order. -/
def CycleMinimum (adjacency : Adjacency W) (l : List ℕ) (b : W) : Prop :=
  ∃ weight : ℕ × ℕ → W, l.Nodup ∧
    (∀ e ∈ cycleEdges l, (e.2, weight e) ∈ edgesFrom adjacency e.1) ∧
    IsLeast {w | ∃ e ∈ cycleEdges l, weight e = w} b

theorem cycleEdges_ne_nil (hne : l ≠ []) : cycleEdges l ≠ [] := by
  rw [← List.length_pos_iff, length_cycleEdges]
  exact List.length_pos_iff.mpr hne

theorem CycleMinimum.ne_nil (h : CycleMinimum adjacency l b) : l ≠ [] := by
  obtain ⟨weight, -, -, ⟨e, he, -⟩, -⟩ := h
  rintro rfl
  exact absurd he List.not_mem_nil

theorem CycleMinimum.nonneg [Zero W] (h : CycleMinimum adjacency l b) (hgraph : Digraph adjacency) :
    0 ≤ b := by
  obtain ⟨weight, -, hedges, ⟨e, he, rfl⟩, -⟩ := h
  exact hgraph.weight_nonneg _ _ (hedges e he)

theorem exists_isLeast (weight : ℕ × ℕ → W) (hne : l ≠ []) :
    ∃ b, IsLeast {w | ∃ e ∈ cycleEdges l, weight e = w} b := by
  have hset : {w | ∃ e ∈ cycleEdges l, weight e = w} =
      (((cycleEdges l).map weight).toFinset : Set W) := by
    ext w
    simp only [Set.mem_ofPred_eq, Finset.mem_coe, List.mem_toFinset, List.mem_map]
  rw [hset]
  refine ⟨_, Finset.isLeast_min' _ ?_⟩
  rw [List.toFinset_nonempty_iff]
  exact List.map_eq_nil_iff.not.mpr (cycleEdges_ne_nil hne)

theorem simpleCycle_iff (hne : l ≠ []) :
    SimpleCycle (EdgeAtLeast adjacency c) l ↔ ∃ b, CycleMinimum adjacency l b ∧ c ≤ b := by
  constructor
  · intro h
    have : Nonempty W := ⟨c⟩
    choose! weight hmem hweight using chain_iff.mp h.chain
    obtain ⟨b, hb⟩ := exists_isLeast weight hne
    obtain ⟨e, he, heq⟩ := hb.1
    exact ⟨b, ⟨weight, h.nodup, hmem, hb⟩, heq ▸ hweight e he⟩
  · rintro ⟨b, ⟨weight, hnodup, hedges, hleast⟩, hcb⟩
    refine ⟨hnodup, chain_iff.mpr fun e he => ⟨weight e, hedges e he, ?_⟩⟩
    exact hcb.trans (hleast.2 ⟨e, he, rfl⟩)

/-- The smallest weights of the simple cycles of `k` or more nodes. -/
def cycleMinima (adjacency : Adjacency W) (k : ℤ) : Set W :=
  {b | ∃ l : List ℕ, k ≤ l.length ∧ CycleMinimum adjacency l b}

/-- A simple cycle of `k` or more nodes, one of them at least. -/
def HasLongCycle (adjacency : Adjacency W) (k : ℤ) : Prop :=
  ∃ l : List ℕ, l ≠ [] ∧ k ≤ l.length ∧
    SimpleCycle (fun u v => ∃ w, (v, w) ∈ edgesFrom adjacency u) l

theorem cycleMinima_nonempty {k : ℤ} :
    (cycleMinima adjacency k).Nonempty ↔ HasLongCycle adjacency k := by
  constructor
  · rintro ⟨b, l, hk, hb⟩
    have hcycle := (simpleCycle_iff hb.ne_nil).mpr ⟨b, hb, le_rfl⟩
    exact ⟨l, hb.ne_nil, hk, hcycle.mono fun _ _ ⟨w, hw, _⟩ => ⟨w, hw⟩⟩
  · rintro ⟨l, hne, hk, hnodup, hchain⟩
    have hedges := chain_iff.mp hchain
    have : Nonempty W := by
      obtain ⟨e, he⟩ := List.exists_mem_of_ne_nil _ (cycleEdges_ne_nil hne)
      exact (hedges e he).nonempty
    choose! weight hmem using hedges
    obtain ⟨b, hb⟩ := exists_isLeast weight hne
    exact ⟨b, l, hk, weight, hnodup, hmem, hb⟩

end

section

variable {W : Type*} [LinearOrder W] [Zero W] {adjacency : Adjacency W}

theorem Digraph.lt_length {c : W} (h : Digraph adjacency) (u v : ℕ)
    (hedge : EdgeAtLeast adjacency c u v) : v < adjacency.length := by
  obtain ⟨weight, hmem, -⟩ := hedge
  exact h.target_lt u _ hmem

theorem maxBottleneckCycle_nonneg (h : Digraph adjacency) (minRingSize : ℕ) :
    0 ≤ maxBottleneckCycle adjacency adjacency.length minRingSize :=
  (le_maxBottleneckCycle_iff_path h.lt_length).mpr (.inl le_rfl)

theorem le_maxBottleneckCycle_iff_minimum {minRingSize : ℕ} {c : W} (h : Digraph adjacency)
    (hc : 0 < c) : c ≤ maxBottleneckCycle adjacency adjacency.length minRingSize ↔
      ∃ b ∈ cycleMinima adjacency (max 2 minRingSize), c ≤ b := by
  rw [le_maxBottleneckCycle_iff hc h.lt_length]
  constructor
  · rintro ⟨l, hl, htwo, hlong⟩
    obtain ⟨b, hb, hcb⟩ := (simpleCycle_iff (SimpleCycle.ne_nil_of_two_le htwo)).mp hl
    exact ⟨b, ⟨l, by omega, hb⟩, hcb⟩
  · rintro ⟨b, ⟨l, hlong, hb⟩, hcb⟩
    exact ⟨l, (simpleCycle_iff hb.ne_nil).mpr ⟨b, hb, hcb⟩, by omega, by omega⟩

/-- The exact search returns the greatest of the smallest weights of the simple cycles that are
long enough, and 0 where there are none. -/
theorem maxBottleneckCycle_isGreatest (h : Digraph adjacency) (minRingSize : ℕ) :
    (HasLongCycle adjacency (max 2 minRingSize) → IsGreatest
      (cycleMinima adjacency (max 2 minRingSize))
      (maxBottleneckCycle adjacency adjacency.length minRingSize)) ∧
    (¬ HasLongCycle adjacency (max 2 minRingSize) →
      maxBottleneckCycle adjacency adjacency.length minRingSize = 0) := by
  have hnonneg := maxBottleneckCycle_nonneg h minRingSize
  have hthresholds : ∀ c, 0 < c →
      (c ≤ maxBottleneckCycle adjacency adjacency.length minRingSize ↔
        ∃ b ∈ cycleMinima adjacency (max 2 minRingSize), c ≤ b) :=
    fun _ hc => le_maxBottleneckCycle_iff_minimum h hc
  rw [← cycleMinima_nonempty]
  constructor
  · intro hne
    refine isGreatest_of_thresholds hnonneg (fun b hb => ?_) hthresholds hne
    obtain ⟨l, -, hmin⟩ := hb
    exact hmin.nonneg h
  · exact eq_zero_of_thresholds hnonneg hthresholds

def triangle : Adjacency ℕ := [[(1, 3)], [(2, 5)], [(0, 2)]]

theorem triangle_digraph : Digraph triangle where
  target_lt u e he := by
    match u, he with
    | 0, he | 1, he | 2, he => simp_all [triangle, edgesFrom]
    | _ + 3, he => simp [triangle, edgesFrom] at he
  weight_nonneg _ _ _ := Nat.zero_le _

theorem maxBottleneckCycle_triangle : IsGreatest (cycleMinima triangle 3) 2 := by
  have hcycle : HasLongCycle triangle (max 2 (3 : ℕ)) := by
    have hedges : ∀ e ∈ cycleEdges [0, 1, 2], ∃ w ∈ [3, 5, 2], (e.2, w) ∈ edgesFrom triangle e.1 :=
      by decide
    refine ⟨[0, 1, 2], List.cons_ne_nil _ _, by decide, by decide, chain_iff.mpr ?_⟩
    intro e he
    obtain ⟨w, -, hmem⟩ := hedges e he
    exact ⟨w, hmem⟩
  have hvalue : maxBottleneckCycle triangle triangle.length 3 = 2 := by decide +kernel
  exact hvalue ▸ (maxBottleneckCycle_isGreatest triangle_digraph 3).1 hcycle

end

section

variable {W : Type*}

/-- The variables of the binary search. -/
structure Search (W : Type*) where
  lo : ℤ
  hi : ℤ
  best : W

/-- A pass of `while lo <= hi`. An index outside the weights raises. -/
def SearchPass (weights : List W) (passes : W → Bool) (s t : Search W) : Prop :=
  let mid := (s.lo + s.hi) / 2
  ∃ w, 0 ≤ mid ∧ weights[mid.toNat]? = some w ∧
    t = if passes w then { s with lo := mid + 1, best := w } else { s with hi := mid - 1 }

theorem SearchPass.unique {weights : List W} {passes : W → Bool} {s t u : Search W}
    (h : SearchPass weights passes s t) (h' : SearchPass weights passes s u) : t = u := by
  obtain ⟨w, -, hw, rfl⟩ := h
  obtain ⟨w', -, hw', rfl⟩ := h'
  rw [Option.some.inj (hw.symm.trans hw')]

/-- The bounded search with passes enough is the loop. -/
theorem while_searchThreshold {weights : List W} {passes : W → Bool} (fuel lo hi : ℕ) (best : W)
    (hfuel : hi - lo ≤ fuel) (hhi : hi ≤ weights.length) :
    ∃ s, While (fun s => s.lo ≤ s.hi) (SearchPass weights passes) ⟨lo, hi - 1, best⟩ s ∧
      s.best = searchThreshold weights passes fuel lo hi best := by
  induction fuel generalizing lo hi best with
  | zero =>
    refine ⟨_, .stop ?_, rfl⟩
    show ¬ (lo : ℤ) ≤ hi - 1
    omega
  | succ fuel ih =>
    rw [searchThreshold]
    split_ifs with hlt
    swap
    · refine ⟨_, .stop ?_, rfl⟩
      show ¬ (lo : ℤ) ≤ hi - 1
      omega
    have hmid : (lo + (hi - 1)) / 2 < weights.length := by omega
    have hcast : ((lo : ℤ) + (hi - 1)) / 2 = ((lo + (hi - 1)) / 2 : ℕ) := by omega
    rw [List.getElem?_eq_getElem hmid]
    have hget := List.getElem?_eq_getElem hmid
    generalize weights[(lo + (hi - 1)) / 2] = w at hget
    have hguard : (⟨lo, hi - 1, best⟩ : Search W).lo ≤ (⟨lo, hi - 1, best⟩ : Search W).hi := by
      show (lo : ℤ) ≤ hi - 1
      omega
    simp only
    split_ifs with hpass
    · obtain ⟨s, hs, heq⟩ := ih ((lo + (hi - 1)) / 2 + 1) hi w (by omega) hhi
      refine ⟨s, .pass hguard ⟨w, ?_, ?_, ?_⟩ hs, heq⟩
      · simp only [hcast]
        exact Int.natCast_nonneg _
      · simpa only [hcast, Int.toNat_natCast] using hget
      · simp only [hcast, if_pos hpass]
        rfl
    · obtain ⟨s, hs, heq⟩ := ih lo ((lo + (hi - 1)) / 2) best (by omega) (by omega)
      refine ⟨s, .pass hguard ⟨w, ?_, ?_, ?_⟩ hs, heq⟩
      · simp only [hcast]
        exact Int.natCast_nonneg _
      · simpa only [hcast, Int.toNat_natCast] using hget
      · simp only [hcast, if_neg hpass]

variable [LinearOrder W]

/-- `_approx_max_bottleneck_cycle` returns the given weight. -/
def ApproxReturns [Zero W] (adjacency : Adjacency W) (minRingSize : ℕ) (out : W) : Prop :=
  let weights := distinctWeights adjacency
  if weights = [] then out = 0
  else ∃ s, While (fun s => s.lo ≤ s.hi) (SearchPass weights (hasSccAtLeast adjacency minRingSize))
    ⟨0, weights.length - 1, 0⟩ s ∧ s.best = out

variable {adjacency : Adjacency W} {minRingSize : ℕ} {out : W}

/-- The binary search ends on every graph, with one outcome. -/
theorem approxReturns_iff [Zero W] :
    ApproxReturns adjacency minRingSize out ↔
      out = approxMaxBottleneckCycle adjacency minRingSize := by
  unfold ApproxReturns approxMaxBottleneckCycle
  simp only
  split_ifs with hempty
  · rw [hempty]
    exact Iff.rfl
  obtain ⟨s, hs, heq⟩ := @while_searchThreshold _ _ (hasSccAtLeast adjacency minRingSize)
    (distinctWeights adjacency).length 0 (distinctWeights adjacency).length 0 (Nat.sub_le _ _)
    le_rfl
  constructor
  · rintro ⟨t, ht, rfl⟩
    rw [ht.unique (fun _ _ _ hpass hpass' => hpass.unique hpass') hs, heq]
  · rintro rfl
    exact ⟨s, hs, heq⟩

/-- The edges of at least the given weight have a strongly connected component of `k` or more
nodes. -/
def Qualifies (adjacency : Adjacency W) (k : ℤ) (threshold : W) : Prop :=
  ∃ C, IsComponent (EdgeAtLeast adjacency threshold) C ∧ k ≤ C.card

theorem hasSccAtLeast_iff_qualifies {k : ℤ} {threshold : W} :
    hasSccAtLeast adjacency k.toNat threshold = true ↔ Qualifies adjacency k threshold := by
  have hcomps := TarjanScc.run_components (thresholdGraph adjacency threshold)
  rw [edge_thresholdGraph] at hcomps
  rw [hasSccAtLeast, List.any_eq_true]
  constructor
  · rintro ⟨l, hl, hlarge⟩
    refine ⟨l.toFinset, ⟨List.toFinset_nonempty_iff l |>.mpr (hcomps.nonempty l hl), ?_, ?_⟩, ?_⟩
    · intro u hu
      exact mem_run_thresholdGraph.mp (List.mem_flatten.mpr ⟨l, hl, List.mem_toFinset.mp hu⟩)
    · intro u hu w
      rw [List.mem_toFinset]
      exact hcomps.together l hl u (List.mem_toFinset.mp hu) w
    · rw [List.toFinset_card_of_nodup (hcomps.nodup_of_mem hl)]
      exact Int.toNat_le.mp (of_decide_eq_true hlarge)
  · rintro ⟨C, hC, hlarge⟩
    obtain ⟨u, hu⟩ := hC.nonempty
    obtain ⟨l, hl, hul⟩ := List.mem_flatten.mp (mem_run_thresholdGraph.mpr (hC.touched u hu))
    have hCl : C = l.toFinset := by
      ext w
      rw [List.mem_toFinset, hC.together u hu, hcomps.together l hl u hul]
    refine ⟨l, hl, decide_eq_true (Int.toNat_le.mpr ?_)⟩
    rw [← List.toFinset_card_of_nodup (hcomps.nodup_of_mem hl), ← hCl]
    exact hlarge

/-- The edge weights whose edges keep a large enough component. -/
def qualifyingWeights (adjacency : Adjacency W) (k : ℤ) : Set W :=
  {w | (∃ u v, (v, w) ∈ edgesFrom adjacency u) ∧ Qualifies adjacency k w}

theorem le_approx_iff_qualifying [Zero W] {k : ℤ} {c : W} (hc : 0 < c) :
    c ≤ approxMaxBottleneckCycle adjacency k.toNat ↔
      ∃ w ∈ qualifyingWeights adjacency k, c ≤ w := by
  rw [le_approx_iff_weight hc]
  constructor
  · rintro ⟨w, hmem, hpass, hcw⟩
    exact ⟨w, ⟨mem_distinctWeights.mp hmem, hasSccAtLeast_iff_qualifies.mp hpass⟩, hcw⟩
  · rintro ⟨w, ⟨hmem, hqualifies⟩, hcw⟩
    exact ⟨w, mem_distinctWeights.mpr hmem, hasSccAtLeast_iff_qualifies.mpr hqualifies, hcw⟩

/-- The least weight of every simple cycle of `k` or more nodes is reached. -/
theorem cycleMinimum_le_approx [Zero W] (h : Digraph adjacency) {k : ℤ} {b : W}
    (hb : b ∈ cycleMinima adjacency k) : b ≤ approxMaxBottleneckCycle adjacency k.toNat := by
  obtain ⟨l, hk, hmin⟩ := hb
  rcases (hmin.nonneg h).lt_or_eq with hpos | rfl
  · have hcycle := (simpleCycle_iff hmin.ne_nil).mpr ⟨b, hmin, le_rfl⟩
    exact (le_approxMaxBottleneckCycle_iff hpos).mpr
      ⟨l, hcycle.cluster hmin.ne_nil (Int.toNat_le.mpr hk)⟩
  · exact approxMaxBottleneckCycle_nonneg fun u v w => h.weight_nonneg u (v, w)

/-- The approximation is never below the least weight of a simple cycle of `k` or more nodes. Its
binary search ends at the greatest weight whose edges keep a component of `k` or more nodes, and
with 0 where there is no such weight. -/
theorem approx_spec [Zero W] (h : Digraph adjacency) (k : ℤ) :
    (∃ out, ApproxReturns adjacency k.toNat out) ∧ ∀ out, ApproxReturns adjacency k.toNat out →
      0 ≤ out ∧ (∀ b ∈ cycleMinima adjacency k, b ≤ out) ∧
      ((qualifyingWeights adjacency k).Nonempty → IsGreatest (qualifyingWeights adjacency k) out) ∧
      (¬ (qualifyingWeights adjacency k).Nonempty → out = 0) := by
  refine ⟨⟨_, approxReturns_iff.mpr rfl⟩, ?_⟩
  intro out hreturns
  obtain rfl := approxReturns_iff.mp hreturns
  have hnonneg : 0 ≤ approxMaxBottleneckCycle adjacency k.toNat :=
    approxMaxBottleneckCycle_nonneg fun u v w => h.weight_nonneg u (v, w)
  have hthresholds : ∀ c, 0 < c → (c ≤ approxMaxBottleneckCycle adjacency k.toNat ↔
      ∃ w ∈ qualifyingWeights adjacency k, c ≤ w) := fun _ hc => le_approx_iff_qualifying hc
  refine ⟨hnonneg, fun b hb => cycleMinimum_le_approx h hb, ?_, ?_⟩
  · refine isGreatest_of_thresholds hnonneg (fun w hw => ?_) hthresholds
    obtain ⟨⟨u, v, hmem⟩, -⟩ := hw
    exact h.weight_nonneg u _ hmem
  · exact eq_zero_of_thresholds hnonneg hthresholds

theorem approx_spec_triangle :
    (∃ out, ApproxReturns triangle (2 : ℤ).toNat out) ∧
      ∀ out, ApproxReturns triangle (2 : ℤ).toNat out →
        0 ≤ out ∧ (∀ b ∈ cycleMinima triangle 2, b ≤ out) ∧
        ((qualifyingWeights triangle 2).Nonempty → IsGreatest (qualifyingWeights triangle 2) out) ∧
        (¬ (qualifyingWeights triangle 2).Nonempty → out = 0) :=
  approx_spec triangle_digraph 2

end

end BottleneckValues
