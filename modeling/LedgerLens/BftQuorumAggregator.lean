import LedgerLens.VoteTally
import Mathlib.Data.Finset.Card
import Mathlib.Data.Finset.Dedup

/-!
# The quorum aggregator of the oracle nodes

`BFTQuorumAggregator` of `detection/oracle_node.py`. Reports are tallied by value and the
largest tally of at least a majority of the node set wins; the tally counts reports, not
the nodes that sent them.
-/
namespace BftQuorumAggregator

open VoteTally

structure OracleReport where
  node : String
  score : ℤ
  confidence : ℤ
  timestamp : ℤ
  signature : List UInt8
  deriving DecidableEq, Repr

structure QuorumResult where
  agreed : Bool
  score : Option ℤ
  confidence : Option ℤ
  quorumSize : ℕ
  totalNodes : ℕ
  faultyBound : ℕ
  agreeingNodes : List String
  slashedNodes : List String
  deriving DecidableEq, Repr

/-- The constructor rejects an empty node set. -/
structure BFTQuorumAggregator where
  totalNodes : ℕ
  totalNodes_pos : 1 ≤ totalNodes

namespace BFTQuorumAggregator

variable (agg : BFTQuorumAggregator)

def faultyBound : ℕ := (agg.totalNodes - 1) / 3
def quorumSize : ℕ := 2 * agg.faultyBound + 1
def majority : ℕ := agg.totalNodes / 2 + 1

end BFTQuorumAggregator

def reportValue (r : OracleReport) : ℤ × ℤ := (r.score, r.confidence)

def noAgreement (agg : BFTQuorumAggregator) : QuorumResult where
  agreed := false
  score := none
  confidence := none
  quorumSize := agg.quorumSize
  totalNodes := agg.totalNodes
  faultyBound := agg.faultyBound
  agreeingNodes := []
  slashedNodes := []

def agreement (agg : BFTQuorumAggregator) (reports : List OracleReport) (winner : ℤ × ℤ)
    (winnerReports : List OracleReport) : QuorumResult where
  agreed := true
  score := some winner.1
  confidence := some winner.2
  quorumSize := agg.quorumSize
  totalNodes := agg.totalNodes
  faultyBound := agg.faultyBound
  agreeingNodes := winnerReports.map OracleReport.node
  slashedNodes := (reports.filter fun r => reportValue r ≠ winner).map OracleReport.node

def aggregate (agg : BFTQuorumAggregator) (reports : List OracleReport) : QuorumResult :=
  if reports.isEmpty then noAgreement agg
  else
    match scan agg.majority (tally reportValue reports) with
    | none => noAgreement agg
    | some (winner, winnerReports) => agreement agg reports winner winnerReports

variable {agg : BFTQuorumAggregator} {reports : List OracleReport}

def support (reports : List OracleReport) (v : ℤ × ℤ) : ℕ := (group reportValue reports v).length

def nodeIds (reports : List OracleReport) : Finset String :=
  (reports.map OracleReport.node).toFinset

theorem majority_pos : 0 < agg.majority := Nat.succ_pos _

theorem aggregate_cases (agg : BFTQuorumAggregator) (reports : List OracleReport) :
    ((∀ v, support reports v < agg.majority) ∧ aggregate agg reports = noAgreement agg) ∨
    ∃ v, agg.majority ≤ support reports v ∧ (∀ w, support reports w ≤ support reports v) ∧
      aggregate agg reports = agreement agg reports v (group reportValue reports v) := by
  have hpos : 0 < agg.majority := majority_pos
  have hbest := scan_isBest hpos (tally reportValue reports)
  unfold aggregate
  cases hscan : scan agg.majority (tally reportValue reports) with
  | none =>
    rw [hscan] at hbest
    refine .inl ⟨fun v => ?_, by split_ifs <;> rfl⟩
    by_cases hempty : group reportValue reports v = []
    · rw [support, hempty]
      exact hpos
    · exact hbest _ (group_mem_tally reportValue hempty)
  | some b =>
    obtain ⟨v, g⟩ := b
    rw [hscan] at hbest
    obtain ⟨hmem, hq, hmax⟩ := hbest
    have hg : g = group reportValue reports v := mem_tally reportValue hmem
    subst hg
    refine .inr ⟨v, hq, fun w => ?_, ?_⟩
    · by_cases hempty : group reportValue reports w = []
      · rw [support, hempty]
        exact Nat.zero_le _
      · exact hmax _ (group_mem_tally reportValue hempty)
    · have hne : reports ≠ [] := by
        rintro rfl
        exact absurd hq (not_le.mpr hpos)
      rw [if_neg (by simpa using hne)]

theorem aggregate_first {r : OracleReport} {rest : List OracleReport}
    (hq : agg.majority ≤ support (r :: rest) (reportValue r))
    (hmax : ∀ w, support (r :: rest) w ≤ support (r :: rest) (reportValue r)) :
    aggregate agg (r :: rest) =
      agreement agg (r :: rest) (reportValue r)
          (group reportValue (r :: rest) (reportValue r)) := by
  obtain ⟨g, others, htally⟩ := tally_cons reportValue r rest
  have hg : g = group reportValue (r :: rest) (reportValue r) :=
    mem_tally reportValue (htally ▸ List.mem_cons_self : (reportValue r, g) ∈ tally _ _)
  have hscan : scan agg.majority ((reportValue r, g) :: others) = some (reportValue r, g) := by
    refine scan_cons majority_pos (hg ▸ hq) fun f hf => ?_
    have hf' := mem_tally reportValue (htally ▸ List.mem_cons_of_mem _ hf : f ∈ tally _ _)
    rw [hf', hg]
    exact hmax f.1
  simp only [aggregate, List.isEmpty_cons, Bool.false_eq_true, if_false, htally, hscan]
  rw [hg]

structure SameOutcome (r r' : QuorumResult) : Prop where
  agreed : r.agreed = r'.agreed
  score : r.score = r'.score
  confidence : r.confidence = r'.confidence
  bounds : (r.quorumSize, r.totalNodes, r.faultyBound) =
    (r'.quorumSize, r'.totalNodes, r'.faultyBound)
  agreeing : r.agreeingNodes.Perm r'.agreeingNodes
  slashed : r.slashedNodes.Perm r'.slashedNodes

structure SoundQuorum (agg : BFTQuorumAggregator) (reports : List OracleReport) : Prop where
  majority : (aggregate agg reports).agreed = true →
    (nodeIds reports).card < 2 * (aggregate agg reports).agreeingNodes.toFinset.card
  disjoint : ∀ node ∈ (aggregate agg reports).agreeingNodes,
    node ∉ (aggregate agg reports).slashedNodes
  order_free : ∀ reports', reports.Perm reports' →
    SameOutcome (aggregate agg reports) (aggregate agg reports')

structure ClearWinner (agg : BFTQuorumAggregator) (reports : List OracleReport) (v : ℤ × ℤ) :
    Prop where
  majority : agg.majority ≤ support reports v
  leads : ∀ w, w ≠ v → support reports w < support reports v
  nodes : (nodeIds reports).card < 2 * (nodeIds (group reportValue reports v)).card
  consistent : ∀ r ∈ reports, ∀ r' ∈ reports, r.node = r'.node → reportValue r = v →
    reportValue r' = v

theorem support_perm {reports' : List OracleReport} (h : reports.Perm reports') (v : ℤ × ℤ) :
    support reports v = support reports' v :=
  (group_perm reportValue h v).length_eq

theorem aggregate_of_leader {v : ℤ × ℤ} (hq : agg.majority ≤ support reports v)
    (hleads : ∀ w, w ≠ v → support reports w < support reports v) :
    aggregate agg reports = agreement agg reports v (group reportValue reports v) := by
  rcases aggregate_cases agg reports with ⟨hnone, -⟩ | ⟨w, -, hmax, heq⟩
  · exact absurd (hnone v) (not_lt.mpr hq)
  · obtain rfl : w = v := by
      by_contra hne
      exact absurd (hmax v) (not_le.mpr (hleads w hne))
    exact heq

theorem noAgreement_of_support (h : ∀ v, support reports v < agg.majority) :
    aggregate agg reports = noAgreement agg := by
  rcases aggregate_cases agg reports with ⟨-, heq⟩ | ⟨v, hq, -, -⟩
  · exact heq
  · exact absurd (h v) (not_lt.mpr hq)

theorem leader_of_order_free {v w : ℤ × ℤ} (hsound : SoundQuorum agg reports)
    (hq : agg.majority ≤ support reports v)
    (hmax : ∀ u, support reports u ≤ support reports v)
    (heq : aggregate agg reports = agreement agg reports v (group reportValue reports v))
    (hne : w ≠ v) : support reports w < support reports v := by
  by_contra hge
  have hsame : support reports w = support reports v := le_antisymm (hmax w) (not_lt.mp hge)
  have hnonempty : group reportValue reports w ≠ [] := by
    intro hnil
    have hzero : support reports w = 0 := by rw [support, hnil, List.length_nil]
    exact absurd (majority_pos.trans_le hq) (by omega)
  obtain ⟨r, hr⟩ := List.exists_mem_of_ne_nil _ hnonempty
  obtain ⟨hr, hvalue⟩ := List.mem_filter.mp hr
  have hperm : reports.Perm (r :: reports.erase r) := List.perm_cons_erase hr
  obtain rfl : reportValue r = w := of_decide_eq_true hvalue
  have hlead : agg.majority ≤ support (r :: reports.erase r) (reportValue r) := by
    rw [← support_perm hperm, hsame]
    exact hq
  have hfirst := aggregate_first hlead fun u => by
    rw [← support_perm hperm, ← support_perm hperm, hsame]
    exact hmax u
  have hout := hsound.order_free _ hperm
  rw [heq, hfirst] at hout
  exact hne (Prod.ext (Option.some.inj hout.score).symm (Option.some.inj hout.confidence).symm)

theorem clearWinner_sound {v : ℤ × ℤ} (h : ClearWinner agg reports v) :
    SoundQuorum agg reports := by
  have heq := aggregate_of_leader h.majority h.leads
  constructor
  · intro _
    rw [heq]
    exact h.nodes
  · intro node hagree hslash
    rw [heq] at hagree hslash
    obtain ⟨r, hr, rfl⟩ := List.mem_map.mp hagree
    obtain ⟨r', hr', hnode⟩ := List.mem_map.mp hslash
    obtain ⟨hr, hvalue⟩ := List.mem_filter.mp hr
    obtain ⟨hr', hother⟩ := List.mem_filter.mp hr'
    exact of_decide_eq_true hother (h.consistent r hr r' hr' hnode.symm (of_decide_eq_true hvalue))
  · intro reports' hperm
    have hlead : agg.majority ≤ support reports' v := by
      rw [← support_perm hperm]
      exact h.majority
    have heq' := aggregate_of_leader hlead fun w hw => by
      rw [← support_perm hperm, ← support_perm hperm]
      exact h.leads w hw
    rw [heq, heq']
    exact ⟨rfl, rfl, rfl, rfl, (group_perm reportValue hperm v).map _, (hperm.filter _).map _⟩

theorem noMajority_sound (h : ∀ v, support reports v < agg.majority) :
    SoundQuorum agg reports := by
  have heq := noAgreement_of_support h
  constructor
  · intro hagreed
    rw [heq] at hagreed
    cases hagreed
  · intro node hagree
    rw [heq] at hagree
    cases hagree
  · intro reports' hperm
    have h' (v : ℤ × ℤ) : support reports' v < agg.majority := by
      rw [← support_perm hperm]
      exact h v
    rw [heq, noAgreement_of_support h']
    exact ⟨rfl, rfl, rfl, rfl, .refl _, .refl _⟩

/-- The aggregator is sound on a report list exactly when no value has a majority of reports
or one value clearly wins. -/
theorem sound_iff_clear_winner (agg : BFTQuorumAggregator) (reports : List OracleReport) :
    SoundQuorum agg reports ↔
      (∀ v, support reports v < agg.majority) ∨ ∃ v, ClearWinner agg reports v := by
  constructor
  · intro hsound
    rcases aggregate_cases agg reports with ⟨hnone, -⟩ | ⟨v, hq, hmax, heq⟩
    · exact .inl hnone
    · refine .inr ⟨v, hq, ?_, ?_, ?_⟩
      · intro w hne
        exact leader_of_order_free hsound hq hmax heq hne
      · have hmajority := hsound.majority
        rw [heq] at hmajority
        exact hmajority rfl
      · intro r hr r' hr' hnode hvalue
        by_contra hother
        have hdisjoint := hsound.disjoint r.node
        rw [heq] at hdisjoint
        exact hdisjoint (List.mem_map.mpr ⟨r, List.mem_filter.mpr ⟨hr, by simpa using hvalue⟩, rfl⟩)
          (List.mem_map.mpr ⟨r', List.mem_filter.mpr ⟨hr', by simpa using hother⟩, hnode.symm⟩)
  · rintro (hnone | ⟨v, hclear⟩)
    · exact noMajority_sound hnone
    · exact clearWinner_sound hclear

theorem one_report_a_node_sound (hnodes : (reports.map OracleReport.node).Nodup)
    (hlen : reports.length ≤ agg.totalNodes) : SoundQuorum agg reports := by
  by_cases hnone : ∀ v, support reports v < agg.majority
  · exact noMajority_sound hnone
  push Not at hnone
  obtain ⟨v, hq⟩ := hnone
  have hhalf : agg.totalNodes < 2 * agg.majority := by
    unfold BFTQuorumAggregator.majority
    omega
  apply clearWinner_sound
  refine ⟨hq, ?_, ?_, ?_⟩
  · intro w hne
    have hdisjoint := group_length_add_le reportValue reports hne
    unfold support at hq ⊢
    omega
  · have hall : (nodeIds reports).card = reports.length := by
      rw [nodeIds, List.toFinset_card_of_nodup hnodes, List.length_map]
    have hgroup : ((group reportValue reports v).map OracleReport.node).Nodup :=
      hnodes.sublist (List.filter_sublist.map _)
    have hagree : (nodeIds (group reportValue reports v)).card = support reports v := by
      rw [nodeIds, List.toFinset_card_of_nodup hgroup, List.length_map, support]
    omega
  · intro r hr r' hr' hnode hvalue
    obtain rfl := List.inj_on_of_nodup_map hnodes hr hr' hnode
    exact hvalue

/-- A node repeating its report outvotes two others that report once. -/
theorem repeated_report_wins : ¬ ∀ agg reports, SoundQuorum agg reports := by
  intro hsound
  have hmajority := (hsound ⟨3, by decide⟩ [⟨"a", 10, 90, 0, []⟩, ⟨"a", 10, 90, 0, []⟩,
    ⟨"b", 70, 90, 0, []⟩, ⟨"c", 70, 91, 0, []⟩]).majority
  exact absurd (hmajority (by decide)) (by decide)

end BftQuorumAggregator
