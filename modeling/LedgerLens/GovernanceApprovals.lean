import LedgerLens.GovernanceRuns

/-!
# Approval of executed proposals

In runs of the engine's own operations, an executed proposal has passed its vote and carries a
complete record of sign-offs and evidence.
-/
namespace Governance

open LabelledRuns SqlTables

variable {Outside : Type} {services : Services Outside}

def Store.votesOn (s : Store) (id : ℕ) : List Vote :=
  s.votes.rows.filter fun v => decide (v.proposalId = id)

section Approval

variable (services : Services Outside) (w₀ : World Outside)

def SignedWhileActive (es : List (Event Outside)) (so : SignOff) : Prop :=
  ∃ before after w evidence s',
    es = before ++ .recordSignoff so.proposalId so.signer so.role evidence so.signedAt :: after ∧
    Run (Step services) w₀ before w ∧ w.store.isCommitteeMember so.signer = true ∧
    recordSignoff w.store so.proposalId so.signer so.role evidence so.signedAt = .ok (so, s')

def PassedTally (es : List (Event Outside)) (id : ℕ) (votes : List Vote) : Prop :=
  ∃ before e after w w' row tally, es = before ++ e :: after ∧
    Run (Step services) w₀ before w ∧ Step services w e w' ∧
    w.store.proposals.find? id = some row ∧ row.status = .active ∧
    tallyProposal w.store id = .ok tally ∧ tally.outcome = .passed ∧
    w'.store.proposals.find? id = some (row.setStatus .passed) ∧ w.store.votesOn id = votes

variable {services w₀}

theorem SignedWhileActive.later {es : List (Event Outside)} {so : SignOff}
    (h : SignedWhileActive services w₀ es so) (e : Event Outside) :
    SignedWhileActive services w₀ (es ++ [e]) so := by
  obtain ⟨before, after, w, evidence, s', rfl, h⟩ := h
  exact ⟨before, after ++ [e], w, evidence, s', by simp, h⟩

theorem PassedTally.later {es : List (Event Outside)} {id : ℕ} {votes : List Vote}
    (h : PassedTally services w₀ es id votes) (e : Event Outside) :
    PassedTally services w₀ (es ++ [e]) id votes := by
  obtain ⟨before, e', after, w, w', row, tally, rfl, h⟩ := h
  exact ⟨before, e', after ++ [e], w, w', row, tally, by simp, h⟩

end Approval

structure Complete (signoffs : List SignOff) (p : Proposal) (chain : ApprovalChain) : Prop where
  roles : ∀ role ∈ (APPROVAL_POLICIES p.proposalType).roles, ∃ so ∈ chain.signoffs, so.role = role
  evidence : ∀ kind ∈ (APPROVAL_POLICIES p.proposalType).evidence,
    ∃ so ∈ chain.signoffs, ∃ v, (kind, v) ∈ so.evidence
  recorded : ∀ so ∈ chain.signoffs, so ∈ signoffs ∧ so.proposalId = p.id
  signers : (chain.signoffs.map SignOff.signer).Nodup

theorem missing_nil {required present : List String}
    (h : required.filter (fun x => decide (x ∉ present)) = []) : ∀ x ∈ required, x ∈ present := by
  intro x hx
  by_contra hmissing
  have hmem : x ∈ required.filter fun x => decide (x ∉ present) := by simp [hx, hmissing]
  rw [h] at hmem
  cases hmem

theorem buildApprovalChain_complete {s : Store} {row : Proposal}
    (hroles : (buildApprovalChain s row).missingRoles = [])
    (hevidence : (buildApprovalChain s row).missingEvidence = []) :
    Complete s.signoffs.rows row (buildApprovalChain s row) := by
  have hmem (so : SignOff) (h : so ∈ (buildApprovalChain s row).signoffs) :
      so ∈ s.signoffs.rows ∧ so.proposalId = row.id := by
    obtain ⟨hso, hid⟩ := List.mem_filter.mp h
    exact ⟨hso, of_decide_eq_true hid⟩
  refine ⟨?_, ?_, hmem, ?_⟩
  · intro role hrole
    exact List.mem_map.mp (missing_nil hroles role hrole)
  · intro kind hkind
    obtain ⟨so, hso, hkind⟩ := List.mem_flatMap.mp (missing_nil hevidence kind hkind)
    obtain ⟨⟨_, v⟩, hv, rfl⟩ := List.mem_map.mp hkind
    exact ⟨so, hso, v, hv⟩
  · -- One signer cannot sign twice for one proposal.
    rw [List.Nodup, List.pairwise_map]
    have hdistinct : (buildApprovalChain s row).signoffs.Pairwise fun a b => ¬ SignOff.Clash a b :=
      s.signoffs.distinct.filter _
    apply hdistinct.imp_of_mem
    intro a b ha hb hclash heq
    exact hclash ⟨(hmem a ha).2.trans (hmem b hb).2.symm, .inr heq⟩

theorem Complete.mono {signoffs signoffs' : List SignOff} {p p' : Proposal}
    {chain : ApprovalChain} (h : Complete signoffs p chain) (hid : p'.id = p.id)
    (htype : p'.proposalType = p.proposalType) (hsub : ∀ so ∈ signoffs, so ∈ signoffs') :
    Complete signoffs' p' chain := by
  refine ⟨?_, ?_, ?_, h.signers⟩
  · rw [htype]
    exact h.roles
  · rw [htype]
    exact h.evidence
  · intro so hso
    obtain ⟨hmem, heq⟩ := h.recorded so hso
    exact ⟨hsub so hmem, heq.trans hid.symm⟩

section Approval

variable (services : Services Outside) (w₀ : World Outside)

/-- What the tables of a reachable state say about the run that led to it. -/
structure Approvals (es : List (Event Outside)) (w : World Outside) : Prop where
  passed : ∀ id p, w.store.proposals.find? id = some p → p.status = .passed ∨ p.status = .executed →
    PassedTally services w₀ es id (w.store.votesOn id)
  signed : ∀ so ∈ w.store.signoffs.rows, SignedWhileActive services w₀ es so
  outsiders : ∀ so ∈ w.store.signoffs.rows,
    ∃ p, w.store.proposals.find? so.proposalId = some p ∧ so.signer ≠ p.proposer
  truthy : ∀ so ∈ w.store.signoffs.rows, ∀ kv ∈ so.evidence, kv.2.truthy = true
  recorded : ∀ id p, w.store.proposals.find? id = some p → p.status = .executed →
    ∃ record ∈ w.store.approvalRecords.rows, record.proposalId = id ∧
      Complete w.store.signoffs.rows p record.approvalChain

variable {services w₀}

theorem Approvals.start (committee : UniqueTable Member Member.Clash)
    (runtimeConfig : Option (List (String × String × Instant))) (outside : Outside) :
    Approvals services w₀ [] (initial committee runtimeConfig outside) := by
  have hnone (id : ℕ) (p : Proposal) :
      (initial committee runtimeConfig outside).store.proposals.find? id ≠ some p :=
    Option.some_ne_none p ∘ Eq.symm
  exact ⟨fun id p hp => absurd hp (hnone id p), fun _ hso => absurd hso List.not_mem_nil,
    fun _ hso => absurd hso List.not_mem_nil, fun _ hso => absurd hso List.not_mem_nil,
    fun id p hp => absurd hp (hnone id p)⟩

theorem Approvals.same {es : List (Event Outside)} {w w' : World Outside}
    (h : Approvals services w₀ es w) (e : Event Outside) (hstore : w'.store = w.store) :
    Approvals services w₀ (es ++ [e]) w' := by
  constructor
  all_goals rw [hstore]
  · exact fun id p hp hstatus => (h.passed id p hp hstatus).later e
  · exact fun so hso => (h.signed so hso).later e
  · exact h.outsiders
  · exact h.truthy
  · exact h.recorded

theorem Approvals.proposal {es : List (Event Outside)} {w w' : World Outside}
    (h : Approvals services w₀ es w) (e : Event Outside) {type : ProposalType} {payload : Payload}
    {proposer : String} {now votingEndsAt : Instant}
    (hstore : w'.store = w.store.insertProposal type payload proposer now votingEndsAt) :
    Approvals services w₀ (es ++ [e]) w' := by
  constructor
  all_goals rw [hstore]
  · intro id p hp hstatus
    rcases find?_insertProposal_cases hp with hold | ⟨-, hactive⟩
    · exact (h.passed id p hold hstatus).later e
    · rw [hactive] at hstatus
      rcases hstatus with hstatus | hstatus <;> cases hstatus
  · exact fun so hso => (h.signed so hso).later e
  · intro so hso
    obtain ⟨p, hp, hne⟩ := h.outsiders so hso
    exact ⟨p, find?_insertProposal hp, hne⟩
  · exact h.truthy
  · intro id p hp hstatus
    rcases find?_insertProposal_cases hp with hold | ⟨-, hactive⟩
    · exact h.recorded id p hold hstatus
    · rw [hactive] at hstatus
      cases hstatus

/-- Votes are cast on active proposals only, so those of a closed one stay as they were. -/
theorem Approvals.vote {es : List (Event Outside)} {w w' : World Outside}
    (h : Approvals services w₀ es w) (e : Event Outside) {row : Proposal} {v : Vote}
    {votes : UniqueTable Vote Vote.Clash}
    (hrow : w.store.proposals.find? v.proposalId = some row) (hactive : row.status = .active)
    (hvotes : votes.rows = w.store.votes.rows ++ [v])
    (hstore : w'.store = { w.store with votes := votes }) :
    Approvals services w₀ (es ++ [e]) w' := by
  constructor
  all_goals rw [hstore]
  · intro id p hp hstatus
    have hother : v.proposalId ≠ id := by
      rintro rfl
      obtain rfl := Option.some.inj (hrow.symm.trans hp)
      rw [hactive] at hstatus
      rcases hstatus with hstatus | hstatus <;> cases hstatus
    have hsame : Store.votesOn { w.store with votes := votes } id = w.store.votesOn id := by
      simp [Store.votesOn, hvotes, hother]
    rw [hsame]
    exact (h.passed id p hp hstatus).later e
  · exact fun so hso => (h.signed so hso).later e
  · exact h.outsiders
  · exact h.truthy
  · exact h.recorded

theorem Approvals.signoff {es : List (Event Outside)} {w w' : World Outside}
    (h : Approvals services w₀ es w) (hrun : Run (Step services) w₀ es w) {id : ℕ}
    {signer role : String} {evidence : Payload} {now : Instant} {so : SignOff} {s' : Store}
    (hok : recordSignoff w.store id signer role evidence now = .ok (so, s'))
    (hstore : w'.store = s') :
    Approvals services w₀ (es ++ [.recordSignoff id signer role evidence now]) w' := by
  obtain ⟨row, signoffs, hrow, -, hmember, hproposer, rfl, hsignoffs, rfl⟩ :=
    recordSignoff_eq_ok hok
  constructor
  all_goals rw [hstore]
  · exact fun id p hp hstatus => (h.passed id p hp hstatus).later _
  · intro so hso
    rw [hsignoffs] at hso
    rcases List.mem_append.mp hso with hso | hso
    · exact (h.signed so hso).later _
    · obtain rfl := List.mem_singleton.mp hso
      exact ⟨es, [], w, evidence, _, rfl, hrun, hmember, hok⟩
  · intro so hso
    rw [hsignoffs] at hso
    rcases List.mem_append.mp hso with hso | hso
    · exact h.outsiders so hso
    · obtain rfl := List.mem_singleton.mp hso
      exact ⟨row, hrow, hproposer⟩
  · intro so hso
    rw [hsignoffs] at hso
    rcases List.mem_append.mp hso with hso | hso
    · exact h.truthy so hso
    · obtain rfl := List.mem_singleton.mp hso
      exact fun kv hkv => (List.mem_filter.mp hkv).2
  · intro id p hp hstatus
    obtain ⟨record, hrecord, hid, hcomplete⟩ := h.recorded id p hp hstatus
    refine ⟨record, hrecord, hid, hcomplete.mono rfl rfl fun so hso => ?_⟩
    rw [hsignoffs]
    exact List.mem_append_left _ hso

theorem Approvals.closing {es : List (Event Outside)} {w w' : World Outside} {e : Event Outside}
    (h : Approvals services w₀ es w) (hrun : Run (Step services) w₀ es w)
    (hstep : Step services w e w') (hclosing : Closing w.store w'.store) :
    Approvals services w₀ (es ++ [e]) w' := by
  have hvotes (id : ℕ) : w'.store.votesOn id = w.store.votesOn id := by
    unfold Store.votesOn
    rw [hclosing.votes]
  constructor
  · intro id p hp hstatus
    rw [hvotes]
    rcases hclosing.proposals id with hsame | ⟨row, hrow, hactive, hclosed⟩
    · exact (h.passed id p (hsame ▸ hp) hstatus).later e
    · obtain rfl := Option.some.inj (hclosed.symm.trans hp)
      have hpassed : outcome (w.store.countVotes id .support) w.store.committeeSize = .passed := by
        unfold outcome
        split_ifs with hquorum
        · rfl
        · simp [Proposal.setStatus, outcome, hquorum] at hstatus
      obtain ⟨tally, htally, houtcome⟩ := tallyProposal_eq_ok hrow
      exact ⟨es, e, [], w, w', row, tally, rfl, hrun, hstep, hrow, hactive, htally,
        houtcome.trans hpassed, hpassed ▸ hclosed, rfl⟩
  · rw [hclosing.signoffs]
    exact fun so hso => (h.signed so hso).later e
  · rw [hclosing.signoffs]
    intro so hso
    obtain ⟨p, hp, hne⟩ := h.outsiders so hso
    rcases hclosing.proposals so.proposalId with hsame | ⟨row, hrow, -, hclosed⟩
    · exact ⟨p, hsame.trans hp, hne⟩
    · obtain rfl := Option.some.inj (hrow.symm.trans hp)
      exact ⟨_, hclosed, hne⟩
  · rw [hclosing.signoffs]
    exact h.truthy
  · rw [hclosing.approvalRecords]
    intro id p hp hstatus
    rcases hclosing.proposals id with hsame | ⟨row, hrow, -, hclosed⟩
    · obtain ⟨record, hrecord, hid, hcomplete⟩ := h.recorded id p (hsame ▸ hp) hstatus
      refine ⟨record, hrecord, hid, hcomplete.mono rfl rfl ?_⟩
      rw [hclosing.signoffs]
      exact fun _ hso => hso
    · obtain rfl := Option.some.inj (hclosed.symm.trans hp)
      unfold outcome at hstatus
      split_ifs at hstatus <;> cases hstatus

theorem Executes.find?_self {w w' : World Outside} {id : ℕ} {effectAt now : Instant}
    {row : Proposal} {error : Option EffectError}
    (h : Executes services w w' id effectAt now row error) :
    w'.store.proposals.find? id = some (row.finish (finalStatus error) now error) := by
  rw [h.proposals, find?_updateProposal, if_pos rfl, h.found]
  rfl

theorem Executes.find?_other {w w' : World Outside} {id id' : ℕ} {effectAt now : Instant}
    {row : Proposal} {error : Option EffectError}
    (h : Executes services w w' id effectAt now row error) (hid : id' ≠ id) :
    w'.store.proposals.find? id' = w.store.proposals.find? id' := by
  rw [h.proposals, find?_updateProposal, if_neg hid]

theorem Approvals.execution {es : List (Event Outside)} {w w' : World Outside}
    (h : Approvals services w₀ es w) (e : Event Outside) {id : ℕ} {effectAt now : Instant}
    {row : Proposal} {error : Option EffectError}
    (hexec : Executes services w w' id effectAt now row error) :
    Approvals services w₀ (es ++ [e]) w' := by
  have hvotes (id : ℕ) : w'.store.votesOn id = w.store.votesOn id := by
    unfold Store.votesOn
    rw [hexec.votes]
  constructor
  · intro id' p hp hstatus
    rw [hvotes]
    by_cases hid : id' = id
    · subst hid
      exact (h.passed id' row hexec.found (.inl hexec.passed)).later e
    · rw [hexec.find?_other hid] at hp
      exact (h.passed id' p hp hstatus).later e
  · rw [hexec.signoffs]
    exact fun so hso => (h.signed so hso).later e
  · rw [hexec.signoffs]
    intro so hso
    obtain ⟨p, hp, hne⟩ := h.outsiders so hso
    by_cases hid : so.proposalId = id
    · subst hid
      obtain rfl := Option.some.inj (hexec.found.symm.trans hp)
      exact ⟨_, hexec.find?_self, hne⟩
    · rw [hexec.find?_other hid]
      exact ⟨p, hp, hne⟩
  · rw [hexec.signoffs]
    exact h.truthy
  · intro id' p hp hstatus
    have hrecorded := hexec.recorded
    rw [hexec.signoffs]
    by_cases hid : id' = id
    · subst hid
      rw [hexec.find?_self] at hp
      obtain rfl := Option.some.inj hp
      have hcomplete := buildApprovalChain_complete hexec.roles hexec.evidence
      cases error with
      | some error => cases hstatus
      | none =>
        rw [if_pos rfl] at hrecorded
        rw [hrecorded]
        exact ⟨_, List.mem_append_right _ (List.mem_singleton.mpr rfl), rfl, hcomplete.roles,
          hcomplete.evidence, hcomplete.recorded, hcomplete.signers⟩
    · rw [hexec.find?_other hid] at hp
      obtain ⟨record, hrecord, hid, hcomplete⟩ := h.recorded id' p hp hstatus
      refine ⟨record, ?_, hid, hcomplete⟩
      split_ifs at hrecorded
      · rw [hrecorded]
        exact List.mem_append_left _ hrecord
      · rw [hrecorded]
        exact hrecord

theorem Approvals.step {es : List (Event Outside)} {w w' : World Outside} {e : Event Outside}
    (h : Approvals services w₀ es w) (hrun : Run (Step services) w₀ es w) (hpublic : ¬ e.Legacy)
    (hstep : Step services w e w') : Approvals services w₀ (es ++ [e]) w' := by
  cases step_writes hpublic hstep with
  | nothing hstore => exact h.same _ hstore
  | proposal _ _ _ _ _ hstore => exact h.proposal _ hstore
  | vote row v votes hrow hactive hvotes hstore => exact h.vote _ hrow hactive hvotes hstore
  | signoff _ _ _ _ _ _ _ hok hstore => exact h.signoff hrun hok hstore
  | closing hclosing => exact h.closing hrun hstep hclosing
  | execution _ _ _ _ _ hexec => exact h.execution _ hexec

theorem run_approvals {es : List (Event Outside)} {w : World Outside}
    {committee : UniqueTable Member Member.Clash}
    {runtimeConfig : Option (List (String × String × Instant))} {outside : Outside}
    (h : Run (Step services) (initial committee runtimeConfig outside) es w)
    (hpublic : ∀ e ∈ es, ¬ e.Legacy) :
    Approvals services (initial committee runtimeConfig outside) es w := by
  generalize hstart : initial committee runtimeConfig outside = w₀ at h
  induction h with
  | refl =>
    subst hstart
    exact .start committee runtimeConfig outside
  | tail hrun hstep ih =>
    have hold := ih fun e he => hpublic e (List.mem_append_left _ he)
    apply hold.step hrun _ hstep
    exact hpublic _ (List.mem_append_right _ (List.mem_singleton.mpr rfl))

end Approval

/-- An executed proposal was closed as passed on the votes it still has, and its approval record
carries the required evidence and, for each required role, the sign-off of a member of its own
who was active when signing and did not propose it. -/
theorem executed_proposal_approved (services : Services Outside)
    (committee : UniqueTable Member Member.Clash)
    (runtimeConfig : Option (List (String × String × Instant))) (outside : Outside)
    (es : List (Event Outside)) (w : World Outside)
    (h : Run (Step services) (initial committee runtimeConfig outside) es w)
    (hpublic : ∀ e ∈ es, ¬ e.Legacy) (p : Proposal) (hp : p ∈ w.store.proposals.rows)
    (hexecuted : p.status = .executed) :
    PassedTally services (initial committee runtimeConfig outside) es p.id
        (w.store.votesOn p.id) ∧
      ∃ record ∈ w.store.approvalRecords.rows, record.proposalId = p.id ∧
        (∀ role ∈ (APPROVAL_POLICIES p.proposalType).roles,
          ∃ so ∈ record.approvalChain.signoffs, so.role = role) ∧
        (record.approvalChain.signoffs.map SignOff.signer).Nodup ∧
        (∀ so ∈ record.approvalChain.signoffs, so.proposalId = p.id ∧ so.signer ≠ p.proposer ∧
          SignedWhileActive services (initial committee runtimeConfig outside) es so) ∧
        ∀ kind ∈ (APPROVAL_POLICIES p.proposalType).evidence,
          ∃ so ∈ record.approvalChain.signoffs, ∃ v, (kind, v) ∈ so.evidence ∧ v.truthy = true := by
  have hall := run_approvals h hpublic
  have hfind : w.store.proposals.find? p.id = some p := IdTable.find?_eq_some.mpr ⟨hp, rfl⟩
  refine ⟨hall.passed p.id p hfind (.inr hexecuted), ?_⟩
  obtain ⟨record, hrecord, hid, hcomplete⟩ := hall.recorded p.id p hfind hexecuted
  refine ⟨record, hrecord, hid, hcomplete.roles, hcomplete.signers, ?_, ?_⟩
  · intro so hso
    obtain ⟨hmem, hown⟩ := hcomplete.recorded so hso
    obtain ⟨p', hp', hne⟩ := hall.outsiders so hmem
    rw [hown] at hp'
    obtain rfl := Option.some.inj (hfind.symm.trans hp')
    exact ⟨hown, hne, hall.signed so hmem⟩
  · intro kind hkind
    obtain ⟨so, hso, v, hv⟩ := hcomplete.evidence kind hkind
    exact ⟨so, hso, v, hv, hall.truthy so (hcomplete.recorded so hso).1 _ hv⟩

def raiseThreshold : Payload :=
  [("key", .text "RISK_SCORE_THRESHOLD"), ("new_value", .text "80")]

/-- A proposal with two of three votes and both sign-offs. -/
def approvedChange : List (Event Unit) := [
  .submitProposal "ana" "config_change" raiseThreshold 10,
  .castVote 1 "ana" "for" 20,
  .castVote 1 "ben" "for" 30,
  .recordSignoff 1 "ben" "risk_owner" [("impact_analysis", .text "report")] 40,
  .recordSignoff 1 "eva" "compliance_officer" [] 50,
  .closeProposal 1,
  .executeProposal 1 60 70]

def afterChange : World Unit :=
  approvedChange.foldl (next quietServices) (initial threeMembers (some []) ())

theorem executed_proposal_approved_change :
    ∃ record ∈ afterChange.store.approvalRecords.rows, record.proposalId = 1 ∧
      ∀ role ∈ ["compliance_officer", "risk_owner"],
        ∃ so ∈ record.approvalChain.signoffs, so.role = role := by
  have hrun : Run (Step quietServices) (initial threeMembers (some []) ()) approvedChange
      afterChange := run_foldl _ _ _
  have hpublic : ∀ e ∈ approvedChange, ¬ e.Legacy := by simp [approvedChange, Event.Legacy]
  obtain ⟨p, hp, hid, htype, hexecuted⟩ : ∃ p ∈ afterChange.store.proposals.rows, p.id = 1 ∧
      p.proposalType = .configChange ∧ p.status = .executed := by decide +kernel
  obtain ⟨-, record, hrecord, hrid, hroles, -⟩ := executed_proposal_approved quietServices
    threeMembers (some []) () approvedChange afterChange hrun hpublic p hp hexecuted
  rw [htype] at hroles
  exact ⟨record, hrecord, hrid.trans hid, hroles⟩

end Governance
