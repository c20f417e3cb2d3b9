import LedgerLens.Graph.ShardFailures

/-!
# Merged rings

What `ShardedTradeGraph.find_wash_rings` returns once the rings of the shards are merged. A new
ring takes the place of one ring that it contains. Others that it contains stay.
-/
namespace MergedRings

open GraphSharding RingMetrics ShardFailures ShardedTradeGraph SubsumptionMerge TradeGraph

def AntichainThroughout (results : List (ℕ × List Ring)) : Prop :=
  ∀ before after, arrivals results = before ++ after →
    Antichain accountSet (mergeAll accountSet joinShards before [])

def OneInsideEach (results : List (ℕ × List Ring)) : Prop :=
  ∀ before x after, arrivals results = before ++ x :: after → OneInside accountSet before x

def Nested (found : Set Ring) : Prop :=
  ∀ ring ∈ found, ∀ a ∈ found, ∀ b ∈ found,
    a.accounts.toFinset ⊂ ring.accounts.toFinset → b.accounts.toFinset ⊂ ring.accounts.toFinset →
      a.accounts.toFinset ⊆ b.accounts.toFinset ∨ b.accounts.toFinset ⊆ a.accounts.toFinset

/-- The shards find rings of the set only. -/
def FoundIn (found : Set Ring) (results : List (ℕ × List Ring)) : Prop :=
  ∀ r ∈ results, ∀ ring ∈ r.2, ring ∈ found

section

variable {results : List (ℕ × List Ring)} {found : Set Ring}

theorem antichainThroughout_iff : AntichainThroughout results ↔ OneInsideEach results :=
  forall_antichain_iff keepsSet_joinShards

theorem antichain_mergeResults_iff : Antichain accountSet (mergeResults results) ↔
    Antichain accountSet (mergeAll accountSet joinShards (arrivals results) []) :=
  (List.perm_insertionSort _ _).pairwise_iff fun h => ⟨h.2, h.1⟩

theorem OneInsideEach.antichain (h : OneInsideEach results) :
    Antichain accountSet (mergeResults results) := by
  have hthroughout := antichainThroughout_iff.mpr h
  exact antichain_mergeResults_iff.mpr (hthroughout _ [] (List.append_nil _).symm)

theorem FoundIn.mem_of_mem_arrivals (h : FoundIn found results) {x : ShardRing}
    (hx : x ∈ arrivals results) : x.ring ∈ found := by
  obtain ⟨r, hr, hring, -⟩ := mem_arrivals.mp hx
  exact h r hr x.ring hring

theorem Nested.oneInsideEach (h : Nested found) (hfound : FoundIn found results) :
    OneInsideEach results := by
  intro before x after harrivals y hy z hz hmaxy hmaxz hyx hzx
  have hmem {w : ShardRing} (hw : w ∈ before ++ x :: after) : w.ring ∈ found :=
    hfound.mem_of_mem_arrivals (harrivals ▸ hw)
  have hnested := h x.ring (hmem (List.mem_append_right _ List.mem_cons_self))
    y.ring (hmem (List.mem_append_left _ hy)) z.ring (hmem (List.mem_append_left _ hz)) hyx hzx
  -- two maximal sets of which one contains the other are one set
  rcases hnested with hyz | hzy
  · exact by_contra fun hne => hmaxy z hz (hyz.ssubset_of_ne hne)
  · exact by_contra fun hne => hmaxz y hy (hzy.ssubset_of_ne (Ne.symm hne))

end

/-- The returned rings are an antichain for all lists of rings from a set, in every order, exactly
where the rings strictly inside one of the set contain one another. For one list they are an
antichain after every arrival exactly where no ring arrives with two maximal sets of earlier ones
strictly inside, and then the returned rings are one. -/
theorem antichain_iff (found : Set Ring) (results : List (ℕ × List Ring)) :
    ((∀ results, FoundIn found results → Antichain accountSet (mergeResults results)) ↔
      Nested found) ∧
    (AntichainThroughout results ↔ OneInsideEach results) ∧
    (OneInsideEach results → Antichain accountSet (mergeResults results)) := by
  refine ⟨⟨?_, ?_⟩, antichainThroughout_iff, OneInsideEach.antichain⟩
  · intro h ring hring a ha b hb haring hbring
    by_contra hapart
    rw [not_or] at hapart
    -- one shard finds the two and then the ring
    have hmerged := antichain_mergeResults_iff.mp (h [(0, [a, b, ring])] fun r hr => ?_)
    · have hwhole : accountSet ⟨a, [0]⟩ ⊂ accountSet ⟨ring, [0]⟩ := haring
      have hwhole' : accountSet ⟨b, [0]⟩ ⊂ accountSet ⟨ring, [0]⟩ := hbring
      exact not_antichain_of_apart keepsSet_joinShards hwhole hwhole' hapart.1 hapart.2 hmerged
    obtain rfl := List.mem_singleton.mp hr
    intro other hother
    simp only [List.mem_cons, List.not_mem_nil, or_false] at hother
    rcases hother with rfl | rfl | rfl
    · exact ha
    · exact hb
    · exact hring
  · exact fun h results hfound => (h.oneInsideEach hfound).antichain

/-- Two rings of three accounts, and an edge each way between their first accounts. -/
def crossKeys : List (String × String) :=
  [("x1", "x2"), ("x2", "x1"), ("x1", "x3"), ("x3", "x1"), ("y1", "y2"), ("y2", "y1"),
    ("y1", "y3"), ("y3", "y1"), ("x1", "y1"), ("y1", "x1")]

def crossGraph : Graph :=
  crossKeys.foldl (fun graph key => graph.addEdge key.1 key.2 1 none) Graph.empty

def crossPlacement : Placement crossGraph.edges where
  nodeToShard node := some (if node = "x1" ∨ node = "y1" then 1 else 0)
  shardCount := 2
  shardCount_pos := Nat.two_pos
  placed node _ := by
    refine ⟨_, ?_, rfl⟩
    split_ifs <;> decide

/-- The first shard finds each ring of three, the second one all six accounts. -/
theorem inner_ring_returned : ∃ outcome,
    ringsUnder ⟨50000, 1000000, true⟩ .inOrder (fun _ => false) crossGraph crossPlacement 0
      ⟨3, 10, 0⟩ = .ok outcome ∧ ¬ Antichain accountSet outcome.rings := by
  have hrun : reportedAccounts (ringsUnder ⟨50000, 1000000, true⟩ .inOrder (fun _ => false)
      crossGraph crossPlacement 0 ⟨3, 10, 0⟩) =
        some [["x1", "x2", "x3", "y1", "y2", "y3"], ["y1", "y2", "y3"]] := by decide +kernel
  cases hresult : ringsUnder ⟨50000, 1000000, true⟩ .inOrder (fun _ => false) crossGraph
      crossPlacement 0 ⟨3, 10, 0⟩ with
  | error e => rw [hresult] at hrun; cases hrun
  | ok outcome =>
    rw [hresult, reportedAccounts, Except.toOption, Option.map_some, Option.some.injEq] at hrun
    refine ⟨outcome, rfl, fun h => ?_⟩
    have hsets : (outcome.rings.map fun r => r.ring.accounts).Pairwise fun a b =>
        ¬ a.toFinset ⊆ b.toFinset ∧ ¬ b.toFinset ⊆ a.toFinset := List.pairwise_map.mpr h
    rw [hrun] at hsets
    exact absurd hsets (by decide)

end MergedRings
