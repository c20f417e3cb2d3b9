import LedgerLens.Governance
import LedgerLens.LabelledRuns

/-!
# Runs of the governance engine

What each operation writes, and the runs that the public entry points make, each call alone.
-/
namespace Governance

open FallibleRuns LabelledRuns SqlTables

theorem submitProposal_eq_ok {s s' : Store} {periodHours : ℤ} {proposer proposalType : String}
    {payload : Payload} {now : Instant} {p : Proposal}
    (h : submitProposal s periodHours proposer proposalType payload now = .ok (p, s')) :
    ∃ type votingEndsAt, s' = s.insertProposal type payload proposer now votingEndsAt := by
  unfold submitProposal at h
  split at h
  · cases h
  · rename_i type _
    obtain ⟨-, -, h⟩ := bind_eq_ok.mp h
    obtain ⟨-, h⟩ := guard_eq_ok.mp h
    obtain ⟨-, rfl⟩ := Prod.mk.inj (Except.ok.inj h)
    exact ⟨type, _, rfl⟩

theorem castVote_eq_ok {s s' : Store} {id : ℕ} {voter decision : String} {now : Instant} {v : Vote}
    (h : castVote s id voter decision now = .ok (v, s')) :
    ∃ row votes, s.proposals.find? id = some row ∧ row.status = .active ∧
      s.isCommitteeMember voter = true ∧ v.proposalId = id ∧ v.voter = voter ∧
      votes.rows = s.votes.rows ++ [v] ∧ s' = { s with votes := votes } := by
  unfold castVote at h
  split at h
  · cases h
  · obtain ⟨hmember, h⟩ := guard_eq_ok.mp h
    split at h
    · cases h
    · rename_i row hrow
      obtain ⟨hactive, h⟩ := guard_eq_ok.mp h
      obtain ⟨-, h⟩ := guard_eq_ok.mp h
      obtain ⟨-, h⟩ := guard_eq_ok.mp h
      split at h
      · cases h
      · rename_i votes hinsert
        obtain ⟨rfl, rfl⟩ := Prod.mk.inj (Except.ok.inj h)
        exact ⟨row, votes, hrow, not_not.mp hactive, by simpa using hmember, rfl, rfl,
          (UniqueTable.insert?_eq_some hinsert).2, rfl⟩

theorem recordSignoff_eq_ok {s s' : Store} {id : ℕ} {signer role : String} {evidence : Payload}
    {now : Instant} {so : SignOff}
    (h : recordSignoff s id signer role evidence now = .ok (so, s')) :
    ∃ row signoffs, s.proposals.find? id = some row ∧
      (row.status = .active ∨ row.status = .passed) ∧
      s.isCommitteeMember signer = true ∧ signer ≠ row.proposer ∧
      so = ⟨id, role, signer, evidence.filter fun kv => kv.2.truthy, now⟩ ∧
      signoffs.rows = s.signoffs.rows ++ [so] ∧ s' = { s with signoffs := signoffs } := by
  unfold recordSignoff at h
  split at h
  · cases h
  · rename_i row hrow
    obtain ⟨hstatus, h⟩ := guard_eq_ok.mp h
    obtain ⟨-, h⟩ := guard_eq_ok.mp h
    obtain ⟨hmember, h⟩ := guard_eq_ok.mp h
    obtain ⟨hproposer, h⟩ := guard_eq_ok.mp h
    split at h
    · cases h
    · rename_i signoffs hinsert
      obtain ⟨rfl, rfl⟩ := Prod.mk.inj (Except.ok.inj h)
      refine ⟨row, signoffs, hrow, ?_, by simpa using hmember, hproposer, rfl,
        (UniqueTable.insert?_eq_some hinsert).2, rfl⟩
      by_contra hclosed
      exact hstatus (not_or.mp hclosed)

theorem find?_insertProposal_cases {s : Store} {type : ProposalType} {payload : Payload}
    {proposer : String} {now votingEndsAt : Instant} {id : ℕ} {p : Proposal}
    (h : (s.insertProposal type payload proposer now votingEndsAt).proposals.find? id = some p) :
    s.proposals.find? id = some p ∨ (s.proposals.find? id = none ∧ p.status = .active) := by
  have h : (s.proposals.insert _ (newProposal_id type payload proposer now votingEndsAt)).find? id =
      some p := h
  rcases IdTable.find?_insert_cases h with hold | ⟨hnone, rfl, -⟩
  · exact .inl hold
  · exact .inr ⟨hnone, rfl⟩

theorem find?_insertProposal {s : Store} {type : ProposalType} {payload : Payload}
    {proposer : String} {now votingEndsAt : Instant} {id : ℕ} {p : Proposal}
    (h : s.proposals.find? id = some p) :
    (s.insertProposal type payload proposer now votingEndsAt).proposals.find? id = some p := by
  show (s.proposals.insert _ (newProposal_id type payload proposer now votingEndsAt)).find? id = _
  exact IdTable.find?_insert h

theorem tallyProposal_eq_ok {s : Store} {id : ℕ} {row : Proposal}
    (h : s.proposals.find? id = some row) : ∃ tally, tallyProposal s id = .ok tally ∧
      tally.outcome = outcome (s.countVotes id .support) s.committeeSize := by
  rw [tallyProposal, h]
  exact ⟨_, rfl, rfl⟩

structure Closing (s s' : Store) : Prop where
  votes : s'.votes = s.votes
  signoffs : s'.signoffs = s.signoffs
  committee : s'.committee = s.committee
  approvalRecords : s'.approvalRecords = s.approvalRecords
  proposals : ∀ id, s'.proposals.find? id = s.proposals.find? id ∨
    ∃ row, s.proposals.find? id = some row ∧ row.status = .active ∧
      s'.proposals.find? id =
        some (row.setStatus (outcome (s.countVotes id .support) s.committeeSize))

theorem Closing.refl (s : Store) : Closing s s := ⟨rfl, rfl, rfl, rfl, fun _ => .inl rfl⟩

theorem outcome_ne_active (forCount committeeSize : ℕ) :
    outcome forCount committeeSize ≠ .active := by
  unfold outcome
  split_ifs <;> simp

theorem Closing.trans {s t u : Store} (h : Closing s t) (h' : Closing t u) : Closing s u := by
  have hcount (id : ℕ) : t.countVotes id .support = s.countVotes id .support := by
    unfold Store.countVotes
    rw [h.votes]
  have hsize : t.committeeSize = s.committeeSize := by
    unfold Store.committeeSize
    rw [h.committee]
  refine ⟨h'.votes.trans h.votes, h'.signoffs.trans h.signoffs, h'.committee.trans h.committee,
    h'.approvalRecords.trans h.approvalRecords, fun id => ?_⟩
  rcases h.proposals id with hsame | ⟨row, hrow, hactive, hclosed⟩
  · rcases h'.proposals id with hsame' | ⟨row, hrow, hactive, hclosed⟩
    · exact .inl (hsame'.trans hsame)
    · refine .inr ⟨row, hsame ▸ hrow, hactive, ?_⟩
      rw [hclosed, hcount, hsize]
  · refine .inr ⟨row, hrow, hactive, ?_⟩
    rcases h'.proposals id with hsame' | ⟨row', hrow', hactive', -⟩
    · exact hsame'.trans hclosed
    · obtain rfl := Option.some.inj (hclosed.symm.trans hrow')
      exact absurd hactive' (outcome_ne_active _ _)

theorem closeProposal_active {s : Store} {id : ℕ} {row : Proposal}
    (hrow : s.proposals.find? id = some row) (hactive : row.status = .active) :
    closeProposal s id =
      .ok (row.setStatus (outcome (s.countVotes id .support) s.committeeSize),
        s.updateProposal id (.setStatus (outcome (s.countVotes id .support) s.committeeSize))
          (setStatus_id _)) := by
  obtain ⟨tally, htally, houtcome⟩ := tallyProposal_eq_ok hrow
  have hfound : (s.updateProposal id (.setStatus tally.outcome) (setStatus_id _)).proposals.find? id
      = some (row.setStatus tally.outcome) := by
    rw [find?_updateProposal, if_pos rfl, hrow]
    rfl
  unfold closeProposal
  rw [hrow, ← houtcome]
  simp only [hactive, ne_eq, not_true, if_false, htally, bind, Except.bind, hfound]
  rfl

theorem closeProposal_closing {s s' : Store} {id : ℕ} {p : Proposal}
    (h : closeProposal s id = .ok (p, s')) : Closing s s' := by
  cases hrow : s.proposals.find? id with
  | none =>
    rw [closeProposal, hrow] at h
    cases h
  | some row =>
    by_cases hactive : row.status = .active
    · rw [closeProposal_active hrow hactive] at h
      obtain ⟨-, rfl⟩ := Prod.mk.inj (Except.ok.inj h)
      refine ⟨rfl, rfl, rfl, rfl, fun id' => ?_⟩
      rw [find?_updateProposal]
      by_cases hid : id' = id
      · subst hid
        rw [if_pos rfl, hrow]
        exact .inr ⟨row, rfl, hactive, rfl⟩
      · exact .inl (if_neg hid)
    · rw [closeProposal, hrow] at h
      simp only [ne_eq, hactive, not_false_iff, if_true] at h
      obtain ⟨-, rfl⟩ := Prod.mk.inj (Except.ok.inj h)
      exact .refl s

theorem closeEach_closing (s : Store) (ids : List ℕ) : Closing s (closeEach s ids).2 := by
  induction ids generalizing s with
  | nil => exact .refl s
  | cons id ids ih =>
    unfold closeEach
    split
    · exact ih s
    · rename_i p s' hclose
      exact (closeProposal_closing hclose).trans (ih s')

/-- An effect leaves alone what the approval of proposals rests on. -/
structure SameApproval (s s' : Store) : Prop where
  proposals : s'.proposals = s.proposals
  votes : s'.votes = s.votes
  signoffs : s'.signoffs = s.signoffs
  approvalRecords : s'.approvalRecords = s.approvalRecords

variable {Outside : Type} {services : Services Outside}

theorem applyConfigChange_store (services : Services Outside) (w : World Outside) (row : Proposal)
    (now : Instant) : ∃ config,
    (applyConfigChange services w row now).1.store = { w.store with runtimeConfig := config } := by
  unfold applyConfigChange
  repeat' split
  all_goals exact ⟨_, rfl⟩

theorem applyModelPromotion_store (services : Services Outside) (w : World Outside)
    (row : Proposal) : (applyModelPromotion services w row).1.store = w.store := by
  unfold applyModelPromotion
  repeat' split
  all_goals rfl

theorem applyCommitteeUpdate_store (w : World Outside) (row : Proposal) (now : Instant) :
    ∃ committee, (applyCommitteeUpdate w row now).1.store =
      { w.store with committee := committee } := by
  unfold applyCommitteeUpdate
  repeat' split
  all_goals exact ⟨_, rfl⟩

theorem applyEffect_sameApproval (services : Services Outside) (w : World Outside)
    (row : Proposal) (now : Instant) :
    SameApproval w.store (applyEffect services w row now).1.store := by
  unfold applyEffect
  split
  · obtain ⟨config, heq⟩ := applyConfigChange_store services w row now
    rw [heq]
    exact ⟨rfl, rfl, rfl, rfl⟩
  · obtain ⟨committee, heq⟩ := applyCommitteeUpdate_store w row now
    rw [heq]
    exact ⟨rfl, rfl, rfl, rfl⟩
  · rw [applyModelPromotion_store]
    exact ⟨rfl, rfl, rfl, rfl⟩

theorem applyEffect_applied (services : Services Outside) (w : World Outside) (row : Proposal)
    (now : Instant) (id : ℕ) : (applyEffect services w row now).1.applied id ≤
      w.applied id + if id = row.id then 1 else 0 := by
  have hcount (l : List ℕ) : (l ++ [row.id]).count id =
      l.count id + if id = row.id then 1 else 0 := by
    rw [List.count_append]
    by_cases hid : id = row.id
    · subst hid
      rw [if_pos rfl, List.count_singleton_self]
    · have hnone : id ∉ [row.id] := by simpa using hid
      rw [if_neg hid, List.count_eq_zero_of_not_mem hnone]
  unfold World.applied
  generalize (if id = row.id then 1 else 0) = one at hcount ⊢
  unfold applyEffect applyConfigChange applyCommitteeUpdate applyModelPromotion
  repeat' split
  all_goals simp only [hcount]
  all_goals omega

def finalStatus : Option EffectError → Status
  | none => .executed
  | some _ => .failed

/-- An execution that ran its effect and was committed, for a proposal that had passed and had
all its approvals. -/
structure Executes (services : Services Outside) (w w' : World Outside) (id : ℕ)
    (effectAt now : Instant) (row : Proposal) (error : Option EffectError) : Prop where
  found : w.store.proposals.find? id = some row
  passed : row.status = .passed
  roles : (buildApprovalChain w.store row).missingRoles = []
  evidence : (buildApprovalChain w.store row).missingEvidence = []
  effect : (applyEffect services w row effectAt).2 = error
  proposals : w'.store.proposals =
    (w.store.updateProposal id (.finish (finalStatus error) now error) (finish_id _ _ _)).proposals
  votes : w'.store.votes = w.store.votes
  signoffs : w'.store.signoffs = w.store.signoffs
  committee : w'.store.committee = (applyEffect services w row effectAt).1.store.committee
  changes : w'.changes = (applyEffect services w row effectAt).1.changes
  memberships : w'.memberships = (applyEffect services w row effectAt).1.memberships
  recorded : if error = none then
      w'.store.approvalRecords.rows = w.store.approvalRecords.rows ++ [⟨id,
        { buildApprovalChain w.store row with status := .executed, executedAt := some now }, now⟩]
    else w'.store.approvalRecords = w.store.approvalRecords

def RolledBack (w w' : World Outside) (id : ℕ) : Prop :=
  (∃ row, w.store.proposals.find? id = some row ∧ row.status = .passed) ∧
    (∃ record ∈ w.store.approvalRecords.rows, record.proposalId = id) ∧ w'.store = w.store

theorem executeProposal_cases (services : Services Outside) (w : World Outside) (id : ℕ)
    (effectAt now : Instant) :
    (executeProposal services w id effectAt now).2 = w ∨
      RolledBack w (executeProposal services w id effectAt now).2 id ∨
      ∃ row error, Executes services w (executeProposal services w id effectAt now).2 id effectAt
        now row error := by
  unfold executeProposal
  split
  · exact .inl rfl
  · rename_i row hrow
    by_cases hstatus : row.status ≠ .passed
    · rw [if_pos hstatus]
      exact .inl rfl
    rw [if_neg hstatus]
    dsimp only
    by_cases hmissing : (buildApprovalChain w.store row).missingRoles ≠ [] ∨
        (buildApprovalChain w.store row).missingEvidence ≠ []
    · rw [if_pos hmissing]
      exact .inl rfl
    rw [if_neg hmissing]
    obtain ⟨hroles, hevidence⟩ := not_or.mp hmissing
    obtain ⟨hproposals, hvotes, hsignoffs, hrecords⟩ :=
      applyEffect_sameApproval services w row effectAt
    have hupdate {s : Store} (h : s.proposals = w.store.proposals) (set : Proposal → Proposal)
        (keeps : ∀ p, (set p).id = p.id) :
        (s.updateProposal id set keeps).proposals =
            (w.store.updateProposal id set keeps).proposals := by
      rw [Store.updateProposal, Store.updateProposal, h]
    split
    · rename_i w' error happly
      rw [happly] at hproposals hvotes hsignoffs hrecords
      exact .inr (.inr ⟨row, some error, hrow, not_not.mp hstatus, not_not.mp hroles,
        not_not.mp hevidence, by rw [happly], hupdate hproposals _ _, hvotes, hsignoffs,
        by rw [happly]; rfl, by rw [happly], by rw [happly], hrecords⟩)
    · rename_i w' happly
      rw [happly] at hproposals hvotes hsignoffs hrecords
      split
      · rename_i hinsert
        obtain ⟨record, hrecord, hid⟩ := UniqueTable.insert?_eq_none.mp hinsert
        have hrecord : record ∈ w.store.approvalRecords.rows := hrecords ▸ hrecord
        exact .inr (.inl ⟨⟨row, hrow, not_not.mp hstatus⟩, ⟨record, hrecord, hid⟩, rfl⟩)
      · rename_i records hinsert
        refine .inr (.inr ⟨row, none, hrow, not_not.mp hstatus, not_not.mp hroles,
          not_not.mp hevidence,
          by rw [happly], hupdate hproposals _ _, hvotes, hsignoffs, by rw [happly]; rfl,
          by rw [happly], by rw [happly], ?_⟩)
        rw [if_pos rfl, (UniqueTable.insert?_eq_some hinsert).2]
        exact congrArg
          (fun t : UniqueTable ApprovalRecord ApprovalRecord.Clash => t.rows ++ _) hrecords

/-- The public entry points, the settings reloader used on its own, and changes that the outside
world makes by itself. -/
inductive Event (Outside : Type) where
  | submitProposal (proposer proposalType : String) (payload : Payload) (now : Instant)
  | castVote (id : ℕ) (voter decision : String) (now : Instant)
  | tallyProposal (id : ℕ)
  | recordSignoff (id : ℕ) (signer role : String) (evidence : Payload) (now : Instant)
  | approvalChain (id : ℕ)
  | recordedApproval (id : ℕ)
  | liveChangeApproval (proposalType target : String)
  | closeProposal (id : ℕ)
  | executeProposal (id : ℕ) (effectAt now : Instant)
  | closeExpired (now : Instant)
  | applySetting (key newValue : String)
  | environment (outside : Outside)
  | createProposal (proposalType proposedValue proposedByKeyHash : String) (daysValid : ℤ)
      (enrolledAt now : Instant)
  | listOpenProposals
  | castProposalVote (proposalId : Option ℕ) (voterKeyHash vote : String)
      (enrolledAt now : Instant)

def Event.Legacy : Event Outside → Prop
  | .createProposal .. => True
  | .castProposalVote .. => True
  | .listOpenProposals => True
  | _ => False

/-- A call that raises leaves the tables as they were. -/
def World.commit {α : Type} (w : World Outside) : Except Error (α × Store) → World Outside
  | .ok (_, s) => { w with store := s }
  | .error _ => w

theorem commit_cases {α : Type} (w : World Outside) (r : Except Error (α × Store)) :
    w.commit r = w ∨ ∃ a s, r = .ok (a, s) ∧ w.commit r = { w with store := s } := by
  cases r with
  | error e => exact .inl rfl
  | ok r => exact .inr ⟨r.1, r.2, rfl, rfl⟩

def next (services : Services Outside) (w : World Outside) : Event Outside → World Outside
  | .submitProposal proposer type payload now =>
    w.commit (submitProposal w.store VOTING_PERIOD_HOURS proposer type payload now)
  | .castVote id voter decision now => w.commit (castVote w.store id voter decision now)
  | .recordSignoff id signer role evidence now =>
    w.commit (recordSignoff w.store id signer role evidence now)
  | .closeProposal id => w.commit (closeProposal w.store id)
  | .executeProposal id effectAt now => (executeProposal services w id effectAt now).2
  | .closeExpired now => { w with store := (closeExpired w.store now).2 }
  | .applySetting key newValue =>
    { w with outside := (services.apply w.outside key newValue).1 }
  | .environment outside => { w with outside := outside }
  | .createProposal type value key daysValid enrolledAt now =>
    { w with store := (createProposal w.store type value key daysValid enrolledAt now).2 }
  | .castProposalVote id key vote enrolledAt now =>
    { w with store := (castProposalVote w.store id key vote enrolledAt now).2 }
  | .tallyProposal _ | .approvalChain _ | .recordedApproval _ | .liveChangeApproval _ _
  | .listOpenProposals => w

def Step (services : Services Outside) (w : World Outside) (e : Event Outside)
    (w' : World Outside) : Prop := w' = next services w e

/-- A database without proposals, with any committee. -/
def initialStore (committee : UniqueTable Member Member.Clash)
    (runtimeConfig : Option (List (String × String × Instant))) : Store :=
  ⟨.empty, .empty, .empty, committee, .empty, runtimeConfig⟩

def initial (committee : UniqueTable Member Member.Clash)
    (runtimeConfig : Option (List (String × String × Instant))) (outside : Outside) :
    World Outside :=
  ⟨initialStore committee runtimeConfig, outside, [], []⟩

def quietServices : Services Unit where
  apply outside _ _ := (outside, none)
  listModelVersions _ _ := .ok []
  rollbackModel outside _ _ := (outside, none)
  bumpConfigVersion outside := outside

def threeMembers : UniqueTable Member Member.Clash where
  rows := [⟨some "ana", 0, true⟩, ⟨some "ben", 0, true⟩, ⟨some "eva", 0, true⟩]
  distinct := by decide

inductive Writes (services : Services Outside) (w : World Outside) :
    Event Outside → World Outside → Prop where
  | nothing {e w'} : w'.store = w.store → Writes services w e w'
  | proposal {e w'} (type payload proposer now votingEndsAt) :
      w'.store = w.store.insertProposal type payload proposer now votingEndsAt →
        Writes services w e w'
  | vote {e w'} (row : Proposal) (v : Vote) (votes) :
      w.store.proposals.find? v.proposalId = some row → row.status = .active →
      votes.rows = w.store.votes.rows ++ [v] → w'.store = { w.store with votes := votes } →
      Writes services w e w'
  | signoff {w'} (id signer role evidence now so) (s' : Store) :
      recordSignoff w.store id signer role evidence now = .ok (so, s') → w'.store = s' →
      Writes services w (.recordSignoff id signer role evidence now) w'
  | closing {e w'} : Closing w.store w'.store → Writes services w e w'
  | execution {w'} (id effectAt now row error) :
      Executes services w w' id effectAt now row error →
      Writes services w (.executeProposal id effectAt now) w'

theorem step_writes {w w' : World Outside} {e : Event Outside} (hpublic : ¬ e.Legacy)
    (h : Step services w e w') : Writes services w e w' := by
  subst h
  cases e with
  | submitProposal proposer type payload now =>
    rcases commit_cases w
      (submitProposal w.store VOTING_PERIOD_HOURS proposer type payload now) with
      heq | ⟨p, s, hok, heq⟩
    · exact .nothing (congrArg World.store heq)
    · obtain ⟨type, ends, rfl⟩ := submitProposal_eq_ok hok
      exact .proposal type payload proposer now ends (congrArg World.store heq)
  | castVote id voter decision now =>
    rcases commit_cases w (castVote w.store id voter decision now) with heq | ⟨v, s, hok, heq⟩
    · exact .nothing (congrArg World.store heq)
    · obtain ⟨row, votes, hrow, hactive, -, rfl, -, hvotes, rfl⟩ := castVote_eq_ok hok
      exact .vote row v votes hrow hactive hvotes (congrArg World.store heq)
  | recordSignoff id signer role evidence now =>
    rcases commit_cases w (recordSignoff w.store id signer role evidence now) with
      heq | ⟨so, s, hok, heq⟩
    · exact .nothing (congrArg World.store heq)
    · exact .signoff id signer role evidence now so s hok (congrArg World.store heq)
  | closeProposal id =>
    rcases commit_cases w (closeProposal w.store id) with heq | ⟨p, s, hok, heq⟩
    · exact .nothing (congrArg World.store heq)
    · apply Writes.closing
      rw [next, heq]
      exact closeProposal_closing hok
  | executeProposal id effectAt now =>
    rcases executeProposal_cases services w id effectAt now with
      heq | ⟨-, -, heq⟩ | ⟨row, error, hexec⟩
    · exact .nothing (congrArg World.store heq)
    · exact .nothing heq
    · exact .execution id effectAt now row error hexec
  | closeExpired now => exact .closing (closeEach_closing w.store _)
  | createProposal => exact absurd trivial hpublic
  | castProposalVote => exact absurd trivial hpublic
  | _ => exact .nothing rfl

end Governance
