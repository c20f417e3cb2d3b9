import LedgerLens.VoteTally
import Mathlib.Data.List.Perm.Subperm
import Mathlib.Logic.Function.Basic
import Mathlib.Tactic.Common

/-!
# Aggregating reports in the oracle coordinator

`OracleCoordinator.aggregate_reports` of `detection/oracle_coordinator.py`: the quorum of
`2f + 1` reports, the most common values first, and slashing of the dissenting nodes.
-/
namespace OracleCoordinator

open VoteTally

/-- The fields `aggregate_reports` reads; nodes are their names. -/
structure Coordinator where
  nodes : List String
  slashAmount : ℕ
  slashedNodes : String → ℕ

namespace Coordinator

variable (c : Coordinator)

/-- Python's floor division, also for an empty node list. -/
def toleratedFaults : ℤ := ((c.nodes.length : ℤ) - 1) / 3
def requiredQuorum : ℤ := 2 * c.toleratedFaults + 1

end Coordinator

/-- A dictionary from node names to scores, in insertion order. -/
structure ReportMap where
  entries : List (String × ℤ)
  nodup : (entries.map Prod.fst).Nodup

structure AggregationResult where
  value : Option ℤ
  agreeing : List String
  dissenting : List String
  slashed : List String
  quorumSize : ℕ
  requiredQuorum : ℤ
  toleratedFaults : ℤ
  isValidQuorum : Bool
  deriving DecidableEq, Repr

/-- `Counter(...).most_common()`: a stable sort, largest count first. -/
def mostCommon (reports : ReportMap) : List (ℤ × ℕ) :=
  ((tally Prod.snd reports.entries).map fun e => (e.1, e.2.length)).mergeSort
    fun a b => decide (b.2 ≤ a.2)

def findWinner (required : ℤ) (counts : List (ℤ × ℕ)) : Option ℤ :=
  (counts.find? fun e => decide (required ≤ e.2)).map Prod.fst

def slash (amount : ℕ) (slashedNodes : String → ℕ) (names : List String) : String → ℕ :=
  names.foldl (fun s name => Function.update s name (s name + amount)) slashedNodes

def aggregateReports (c : Coordinator) (reports : ReportMap) (slashing : Bool) :
    AggregationResult × (String → ℕ) :=
  match findWinner c.requiredQuorum (mostCommon reports) with
  | none =>
    ({ value := none
       agreeing := []
       dissenting := reports.entries.map Prod.fst
       slashed := []
       quorumSize := 0
       requiredQuorum := c.requiredQuorum
       toleratedFaults := c.toleratedFaults
       isValidQuorum := false }, c.slashedNodes)
  | some winner =>
    let agreeing := (reports.entries.filter fun e => e.2 = winner).map Prod.fst
    let dissenting := (reports.entries.filter fun e => e.2 ≠ winner).map Prod.fst
    let slashed := if slashing then dissenting else []
    ({ value := some winner
       agreeing, dissenting, slashed
       quorumSize := agreeing.length
       requiredQuorum := c.requiredQuorum
       toleratedFaults := c.toleratedFaults
       isValidQuorum := true }, slash c.slashAmount c.slashedNodes slashed)

variable {c : Coordinator} {reports : ReportMap}

def support (reports : ReportMap) (v : ℤ) : ℕ := (group Prod.snd reports.entries v).length

def OnNodes (c : Coordinator) (reports : ReportMap) : Prop :=
  ∀ e ∈ reports.entries, e.1 ∈ c.nodes

/-- All but at most `f` nodes report `v`. -/
def AllButFaulty (c : Coordinator) (reports : ReportMap) (v : ℤ) : Prop :=
  (c.nodes.length : ℤ) ≤ support reports v + c.toleratedFaults

theorem mem_mostCommon {e : ℤ × ℕ} (h : e ∈ mostCommon reports) : e.2 = support reports e.1 := by
  obtain ⟨g, hg, rfl⟩ := List.mem_map.mp (List.mem_mergeSort.mp h)
  rw [support, ← mem_tally Prod.snd hg]

theorem support_mem_mostCommon {v : ℤ} (h : 0 < support reports v) :
    (v, support reports v) ∈ mostCommon reports := by
  have hne : group Prod.snd reports.entries v ≠ [] := List.ne_nil_of_length_pos h
  exact List.mem_mergeSort.mpr (List.mem_map.mpr ⟨_, group_mem_tally Prod.snd hne, rfl⟩)

theorem findWinner_some {v : ℤ} (h : findWinner c.requiredQuorum (mostCommon reports) = some v) :
    c.requiredQuorum ≤ support reports v := by
  obtain ⟨e, he, rfl⟩ := Option.map_eq_some_iff.mp h
  rw [← mem_mostCommon (List.mem_of_find?_eq_some he)]
  have hreached := List.find?_some he
  exact of_decide_eq_true hreached

theorem findWinner_none (h : findWinner c.requiredQuorum (mostCommon reports) = none) {v : ℤ}
    (hv : 0 < support reports v) : (support reports v : ℤ) < c.requiredQuorum := by
  have hnone := List.find?_eq_none.mp (Option.map_eq_none_iff.mp h) _ (support_mem_mostCommon hv)
  simpa using hnone

theorem value_eq_findWinner (c : Coordinator) (reports : ReportMap) (slashing : Bool) :
    (aggregateReports c reports slashing).1.value =
      findWinner c.requiredQuorum (mostCommon reports) := by
  unfold aggregateReports
  split <;> simp [*]

theorem length_le_nodes (h : OnNodes c reports) : reports.entries.length ≤ c.nodes.length := by
  have hsub : reports.entries.map Prod.fst ⊆ c.nodes := by
    intro name hname
    obtain ⟨e, he, rfl⟩ := List.mem_map.mp hname
    exact h e he
  have hle := (List.subperm_of_subset reports.nodup hsub).length_le
  rwa [List.length_map] at hle

theorem requiredQuorum_pos (hn : 1 ≤ c.nodes.length) : 0 < c.requiredQuorum := by
  unfold Coordinator.requiredQuorum Coordinator.toleratedFaults
  omega

theorem quorum_unique (h : OnNodes c reports)
    (hsize : (c.nodes.length : ℤ) < 2 * c.requiredQuorum) {v w : ℤ}
    (hv : c.requiredQuorum ≤ support reports v) (hw : c.requiredQuorum ≤ support reports w) :
    v = w := by
  by_contra hne
  have hdisjoint := group_length_add_le Prod.snd reports.entries hne
  have hlen := length_le_nodes h
  unfold support at hv hw
  omega

theorem value_of_unique {v : ℤ} (hn : 1 ≤ c.nodes.length)
    (hv : c.requiredQuorum ≤ support reports v)
    (hunique : ∀ w, c.requiredQuorum ≤ support reports w → w = v) (slashing : Bool) :
    (aggregateReports c reports slashing).1.value = some v := by
  rw [value_eq_findWinner]
  have hpos := requiredQuorum_pos hn
  cases hwinner : findWinner c.requiredQuorum (mostCommon reports) with
  | none =>
    have hlt := findWinner_none hwinner (v := v) (by omega)
    omega
  | some w => rw [hunique w (findWinner_some hwinner)]

/-- At most one value reaches the quorum, so the winner does not depend on the order of the
map, and all nodes but the tolerated faults decide it and are not slashed. -/
structure SoundQuorumRule (c : Coordinator) : Prop where
  unique : ∀ reports, OnNodes c reports → ∀ v w, c.requiredQuorum ≤ support reports v →
    c.requiredQuorum ≤ support reports w → v = w
  order_free : ∀ reports reports' slashing, OnNodes c reports →
    reports.entries.Perm reports'.entries →
    (aggregateReports c reports slashing).1.value = (aggregateReports c reports' slashing).1.value
  honest_wins : ∀ reports v slashing, OnNodes c reports → AllButFaulty c reports v →
    (aggregateReports c reports slashing).1.value = some v ∧
    ∀ name, (name, v) ∈ reports.entries → name ∉ (aggregateReports c reports slashing).1.slashed

theorem support_perm {reports' : ReportMap} (h : reports.entries.Perm reports'.entries) (v : ℤ) :
    support reports v = support reports' v :=
  (group_perm Prod.snd h v).length_eq

theorem winner_not_slashed {v : ℤ} {slashing : Bool} {name : String}
    (h : (aggregateReports c reports slashing).1.value = some v)
    (hname : (name, v) ∈ reports.entries) :
    name ∉ (aggregateReports c reports slashing).1.slashed := by
  rw [value_eq_findWinner] at h
  simp only [aggregateReports, h]
  split_ifs
  · intro hmem
    obtain ⟨e, he, rfl⟩ := List.mem_map.mp hmem
    obtain ⟨he, hother⟩ := List.mem_filter.mp he
    have hsame := List.inj_on_of_nodup_map reports.nodup he hname rfl
    rw [hsame] at hother
    exact of_decide_eq_true hother rfl
  · exact List.not_mem_nil

/-- The `3f + 1` bound makes the value of all but `f` nodes the only one with a quorum. -/
theorem honest_wins (hn : 1 ≤ c.nodes.length) (h : OnNodes c reports) {v : ℤ}
    (hv : AllButFaulty c reports v) (slashing : Bool) :
    (aggregateReports c reports slashing).1.value = some v := by
  have hlen := length_le_nodes h
  unfold AllButFaulty at hv
  apply value_of_unique hn
  · unfold Coordinator.requiredQuorum Coordinator.toleratedFaults at *
    omega
  · intro w hw
    by_contra hne
    have hdisjoint := group_length_add_le Prod.snd reports.entries hne
    unfold support at hv hw
    unfold Coordinator.requiredQuorum Coordinator.toleratedFaults at *
    omega

theorem order_free (hn : 1 ≤ c.nodes.length) {reports' : ReportMap}
    (hunique : ∀ v w, c.requiredQuorum ≤ support reports v → c.requiredQuorum ≤ support reports w →
      v = w) (hperm : reports.entries.Perm reports'.entries) (slashing : Bool) :
    (aggregateReports c reports slashing).1.value =
      (aggregateReports c reports' slashing).1.value := by
  have hpos := requiredQuorum_pos hn
  cases hwinner : findWinner c.requiredQuorum (mostCommon reports) with
  | some v =>
    have hv := findWinner_some hwinner
    rw [value_of_unique hn hv (fun w hw => hunique w v hw hv), value_of_unique hn]
    · rwa [← support_perm hperm]
    · intro w hw
      rw [← support_perm hperm] at hw
      exact hunique w v hw hv
  | none =>
    rw [value_eq_findWinner, value_eq_findWinner, hwinner]
    cases hwinner' : findWinner c.requiredQuorum (mostCommon reports') with
    | none => rfl
    | some w =>
      have hw := findWinner_some hwinner'
      rw [← support_perm hperm] at hw
      exact absurd (findWinner_none hwinner (by omega)) (not_lt.mpr hw)

/-- Half of a too large node set reports one value, as many others another one. -/
def splitReports (c : Coordinator) (hnames : c.nodes.Nodup) (q : ℕ) : ReportMap where
  entries := (c.nodes.take q).map (·, 1) ++ ((c.nodes.drop q).take q).map (·, 2)
  nodup := by
    have hsub : ((c.nodes.take q) ++ ((c.nodes.drop q).take q)).Sublist c.nodes := by
      conv_rhs => rw [← List.take_append_drop q c.nodes]
      exact (List.Sublist.refl _).append (List.take_sublist _ _)
    simpa [List.map_map, Function.comp_def] using hnames.sublist hsub

theorem splitReports_support (hnames : c.nodes.Nodup) {q : ℕ} (hq : 2 * q ≤ c.nodes.length) :
    support (splitReports c hnames q) 1 = q ∧ support (splitReports c hnames q) 2 = q := by
  simp only [support, splitReports, group_append]
  simp only [group, List.filter_map, Function.comp_def]
  simp
  omega

theorem splitReports_onNodes (hnames : c.nodes.Nodup) (q : ℕ) :
    OnNodes c (splitReports c hnames q) := by
  intro e he
  rcases List.mem_append.mp he with he | he
  · obtain ⟨name, hname, rfl⟩ := List.mem_map.mp he
    exact List.mem_of_mem_take hname
  · obtain ⟨name, hname, rfl⟩ := List.mem_map.mp he
    exact List.mem_of_mem_drop (List.mem_of_mem_take hname)

/-- `2f + 1` of `n` nodes are more than half except for two, three and six nodes. -/
theorem two_quorums_exceed (hn : 1 ≤ c.nodes.length) :
    (c.nodes.length : ℤ) < 2 * c.requiredQuorum ↔
      c.nodes.length ≠ 2 ∧ c.nodes.length ≠ 3 ∧ c.nodes.length ≠ 6 := by
  unfold Coordinator.requiredQuorum Coordinator.toleratedFaults
  omega

theorem soundQuorumRule_of_size (hn : 1 ≤ c.nodes.length)
    (hsize : (c.nodes.length : ℤ) < 2 * c.requiredQuorum) : SoundQuorumRule c where
  unique _ h _ _ hv hw := quorum_unique h hsize hv hw
  order_free _ _ slashing h hperm :=
    order_free hn (fun _ _ hv hw => quorum_unique h hsize hv hw) hperm slashing
  honest_wins _ _ slashing h hv :=
    have hvalue := honest_wins hn h hv slashing
    ⟨hvalue, fun _ hname => winner_not_slashed hvalue hname⟩

theorem size_of_soundQuorumRule (hn : 1 ≤ c.nodes.length) (hnames : c.nodes.Nodup)
    (hsound : SoundQuorumRule c) : (c.nodes.length : ℤ) < 2 * c.requiredQuorum := by
  by_contra hge
  have hpos := requiredQuorum_pos hn
  rcases Int.eq_ofNat_of_zero_le hpos.le with ⟨q, hq⟩
  have hq2 : 2 * q ≤ c.nodes.length := by omega
  rcases splitReports_support hnames hq2 with ⟨h1, h2⟩
  have heq := hsound.unique _ (splitReports_onNodes hnames q) 1 2 (by omega) (by omega)
  exact absurd heq (by decide)

def nodeNames (n : ℕ) : List String :=
  (List.range n).map fun i => String.ofList (List.replicate i 'x')

theorem nodeNames_nodup (n : ℕ) : (nodeNames n).Nodup := by
  apply List.Nodup.map _ List.nodup_range
  intro i j h
  have hlen := congrArg List.length (String.ofList_injective h)
  rwa [List.length_replicate, List.length_replicate] at hlen

/-- The quorum rule is sound for every number of nodes but two, three and six. -/
theorem soundQuorumRule_iff {n : ℕ} (hn : 1 ≤ n) :
    (∀ c : Coordinator, c.nodes.length = n → SoundQuorumRule c) ↔ n ≠ 2 ∧ n ≠ 3 ∧ n ≠ 6 := by
  constructor
  · intro hsound
    have hlen : (nodeNames n).length = n := by rw [nodeNames, List.length_map, List.length_range]
    have hsize := size_of_soundQuorumRule (c := ⟨nodeNames n, 1, fun _ => 0⟩) (hlen.symm ▸ hn)
      (nodeNames_nodup n) (hsound _ hlen)
    rw [two_quorums_exceed (hlen.symm ▸ hn)] at hsize
    rwa [hlen] at hsize
  · rintro h c rfl
    exact soundQuorumRule_of_size hn ((two_quorums_exceed hn).mpr h)

theorem soundQuorumRule_four :
    (∀ c : Coordinator, c.nodes.length = 4 → SoundQuorumRule c) ↔ 4 ≠ 2 ∧ 4 ≠ 3 ∧ 4 ≠ 6 :=
  soundQuorumRule_iff (by decide)

/-- With two nodes each report is a quorum of its own. -/
theorem two_nodes_disagree : ¬ ∀ c : Coordinator, 1 ≤ c.nodes.length → SoundQuorumRule c := by
  intro hsound
  have h := (hsound ⟨["a", "b"], 1, fun _ => 0⟩ (by decide)).unique
    ⟨[("a", 10), ("b", 90)], by decide⟩ (by unfold OnNodes; decide) 10 90 (by decide) (by decide)
  exact absurd h (by decide)

end OracleCoordinator
