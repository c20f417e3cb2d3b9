import LedgerLens.FallibleRuns
import LedgerLens.SqlTables
import Mathlib.Algebra.Order.Ring.Int

/-!
# Governance proposals

`detection/governance.py`: the tables of the governance engine and its operations, each run
alone. Times are microseconds of UTC. What the engine reaches outside its database, the settings
reloader and the model registry, is a parameter.
-/
namespace Governance

open SqlTables

abbrev Instant := ℤ

inductive ProposalType where
  | configChange
  | committeeUpdate
  | modelPromotion
  deriving DecidableEq, Repr

def ProposalType.parse (s : String) : Option ProposalType :=
  if s = "config_change" then some .configChange
  else if s = "model_promotion" then some .modelPromotion
  else if s = "committee_update" then some .committeeUpdate
  else none

def ProposalType.name : ProposalType → String
  | .configChange => "config_change"
  | .modelPromotion => "model_promotion"
  | .committeeUpdate => "committee_update"

theorem ProposalType.parse_name (t : ProposalType) : parse t.name = some t := by
  cases t <;> rfl

inductive Status where
  | active
  | passed
  | rejected
  | executed
  | failed
  deriving DecidableEq, Repr

def Status.name : Status → String
  | .active => "active"
  | .passed => "passed"
  | .rejected => "rejected"
  | .executed => "executed"
  | .failed => "failed"

inductive Decision where
  | support
  | against
  | abstain
  deriving DecidableEq, Repr

def Decision.parse (s : String) : Option Decision :=
  if s = "for" then some .support
  else if s = "against" then some .against
  else if s = "abstain" then some .abstain
  else none

/-- A JSON value. A real number and a compound value carry the text that `str` gives them. -/
inductive Value where
  | null
  | bool (b : Bool)
  | int (i : ℤ)
  | real (written : String)
  | text (s : String)
  | compound (written : String) (nonempty : Bool)
  deriving DecidableEq, Repr

def Value.truthy : Value → Bool
  | .null => false
  | .bool b => b
  | .int i => i ≠ 0
  | .real written => written ≠ "0.0" && written ≠ "-0.0"
  | .text s => s ≠ ""
  | .compound _ nonempty => nonempty

def Value.str : Value → String
  | .null => "None"
  | .bool b => if b then "True" else "False"
  | .int i => toString i
  | .real written => written
  | .text s => s
  | .compound written _ => written

abbrev Payload := List (String × Value)

def Payload.get? (p : Payload) (key : String) : Option Value := p.lookup key

structure ApprovalPolicy where
  roles : List String
  evidence : List String

/-- Roles and evidence kinds are in sorted order. -/
def APPROVAL_POLICIES : ProposalType → ApprovalPolicy
  | .configChange => ⟨["compliance_officer", "risk_owner"], ["impact_analysis"]⟩
  | .modelPromotion =>
    ⟨["compliance_officer", "independent_validator", "model_owner"],
      ["backtest_report", "red_team_report", "robustness_report"]⟩
  | .committeeUpdate => ⟨[], []⟩

def ALLOWED_SETTINGS : List String := ["RISK_SCORE_THRESHOLD", "SOROBAN_CIRCUIT_BREAKER_THRESHOLD",
  "FEEDBACK_DECAY_LAMBDA", "CROSS_CHAIN_MIN_CONFIDENCE"]

/-- `_MODEL_NAME_RE.match`, whose final `$` admits one trailing newline. -/
def matchesModelName (name : String) : Bool :=
  let chars := name.toList
  let body := if chars.getLast? = some '\n' then chars.dropLast else chars
  !body.isEmpty && body.all fun c => ('a' ≤ c && c ≤ 'z') || c.isDigit || c = '_'

/-- What made the effect of a proposal fail. -/
inductive EffectError where
  | raised (text : String)
  | missingKey (key : String)
  | noRuntimeConfig
  | unsupportedValue
  | unknownCommitteeAction (action : Value)
  | versionNotFound (name version : String)
  deriving DecidableEq, Repr

structure Proposal where
  id : ℕ
  proposalType : ProposalType
  payload : Payload
  proposer : String
  status : Status
  submittedAt : Instant
  votingEndsAt : Instant
  executedAt : Option Instant
  executionError : Option EffectError
  deriving DecidableEq, Repr

structure Vote where
  proposalId : ℕ
  voter : String
  decision : Decision
  castAt : Instant
  deriving DecidableEq, Repr

def Vote.Clash (a b : Vote) : Prop := a.proposalId = b.proposalId ∧ a.voter = b.voter

instance : DecidableRel Vote.Clash := fun _ _ => inferInstanceAs (Decidable (_ ∧ _))

structure SignOff where
  proposalId : ℕ
  role : String
  signer : String
  evidence : Payload
  signedAt : Instant
  deriving DecidableEq, Repr

def SignOff.Clash (a b : SignOff) : Prop :=
  a.proposalId = b.proposalId ∧ (a.role = b.role ∨ a.signer = b.signer)

instance : DecidableRel SignOff.Clash := fun _ _ => inferInstanceAs (Decidable (_ ∧ (_ ∨ _)))

/-- The `member` column may be null. -/
structure Member where
  member : Option String
  addedAt : Instant
  active : Bool
  deriving DecidableEq, Repr

/-- Nulls are distinct from one another. -/
def Member.Clash (a b : Member) : Prop := a.member ≠ none ∧ a.member = b.member

instance : DecidableRel Member.Clash := fun _ _ => inferInstanceAs (Decidable (_ ∧ _))

structure ApprovalChain where
  proposalId : ℕ
  proposalType : ProposalType
  payload : Payload
  proposer : String
  submittedAt : Instant
  status : Status
  votes : List Vote
  signoffs : List SignOff
  missingRoles : List String
  missingEvidence : List String
  executedAt : Option Instant
  deriving DecidableEq, Repr

structure ApprovalRecord where
  proposalId : ℕ
  approvalChain : ApprovalChain
  recordedAt : Instant
  deriving DecidableEq, Repr

def ApprovalRecord.Clash (a b : ApprovalRecord) : Prop := a.proposalId = b.proposalId

instance : DecidableRel ApprovalRecord.Clash := fun _ _ => inferInstanceAs (Decidable (_ = _))

/-- The governance tables, and `runtime_config` where the database has it. -/
structure Store where
  proposals : IdTable Proposal Proposal.id
  votes : UniqueTable Vote Vote.Clash
  signoffs : UniqueTable SignOff SignOff.Clash
  committee : UniqueTable Member Member.Clash
  approvalRecords : UniqueTable ApprovalRecord ApprovalRecord.Clash
  runtimeConfig : Option (List (String × String × Instant))

def Store.committeeSize (s : Store) : ℕ := s.committee.rows.countP fun m => m.active

def Store.isCommitteeMember (s : Store) (member : String) : Bool :=
  s.committee.rows.any fun m => m.member = some member && m.active

def Proposal.setStatus (status : Status) (p : Proposal) : Proposal := { p with status := status }

def Proposal.finish (status : Status) (now : Instant) (error : Option EffectError)
    (p : Proposal) : Proposal :=
  { p with status := status, executedAt := some now, executionError := error <|> p.executionError }

theorem setStatus_id (status : Status) (p : Proposal) : (p.setStatus status).id = p.id := rfl

theorem finish_id (status : Status) (now : Instant) (error : Option EffectError) (p : Proposal) :
    (p.finish status now error).id = p.id := rfl

/-- `UPDATE governance_proposals SET … WHERE id = ?`. -/
def Store.updateProposal (s : Store) (id : ℕ) (set : Proposal → Proposal)
    (keeps : ∀ p, (set p).id = p.id) : Store :=
  { s with proposals := s.proposals.update (fun p => p.id = id) set keeps }

theorem find?_updateProposal {s : Store} {id id' : ℕ} {set : Proposal → Proposal} {keeps} :
    (s.updateProposal id set keeps).proposals.find? id' =
      if id' = id then (s.proposals.find? id').map set else s.proposals.find? id' := by
  rw [Store.updateProposal, IdTable.find?_update]
  cases hfind : s.proposals.find? id' with
  | none => simp
  | some p =>
    obtain ⟨-, rfl⟩ := IdTable.find?_eq_some.mp hfind
    by_cases hid : p.id = id
    · simp [hid]
    · simp [hid]

/-- Each error by what its message says. -/
inductive Error where
  | invalidProposalType (proposalType : String)
  | invalidModelPromotion
  | settingNotModifiable (key : Value)
  | unhashableKey
  | proposerNotMember (proposer : String)
  | invalidDecision (decision : String)
  | voterNotMember (voter : String)
  | proposalNotFound (id : ℕ)
  | proposalNotActive (id : ℕ) (status : Status)
  | votingExpired (id : ℕ)
  | alreadyVoted (voter : String) (id : ℕ)
  | signoffsClosed (id : ℕ) (status : Status)
  | roleNotInPolicy (role : String) (proposalType : ProposalType)
  | signerNotMember (signer : String)
  | proposerCannotSign
  | alreadySigned (role signer : String)
  | cannotBeExecuted (id : ℕ) (status : Status)
  | missingApprovals (id : ℕ) (roles evidence : List String)
  | integrityError
  deriving DecidableEq, Repr

def VOTING_PERIOD_HOURS : ℤ := 72

def hours (n : ℤ) : ℤ := n * 3600000000

/-- The checks of `submit_proposal` that read the arguments only. -/
def checkPayload (proposalType : ProposalType) (payload : Payload) : Except Error Unit :=
  match proposalType with
  | .modelPromotion =>
    let name := ((payload.get? "model_name").getD (.text "")).str
    if !matchesModelName name || !((payload.get? "version").getD .null).truthy then
      throw .invalidModelPromotion
    else pure ()
  | .configChange =>
    match (payload.get? "key").getD (.text "") with
    | .text key =>
      if key ∈ ALLOWED_SETTINGS then pure () else throw (.settingNotModifiable (.text key))
    | .compound _ _ => throw .unhashableKey
    | key => throw (.settingNotModifiable key)
  | .committeeUpdate => pure ()

def newProposal (proposalType : ProposalType) (payload : Payload) (proposer : String)
    (now votingEndsAt : Instant) (id : ℕ) : Proposal :=
  ⟨id, proposalType, payload, proposer, .active, now, votingEndsAt, none, none⟩

theorem newProposal_id (proposalType : ProposalType) (payload : Payload) (proposer : String)
    (now votingEndsAt : Instant) (id : ℕ) :
    (newProposal proposalType payload proposer now votingEndsAt id).id = id := rfl

def Store.insertProposal (s : Store) (proposalType : ProposalType) (payload : Payload)
    (proposer : String) (now votingEndsAt : Instant) : Store :=
  { s with
    proposals := s.proposals.insert (newProposal proposalType payload proposer now votingEndsAt)
      (newProposal_id proposalType payload proposer now votingEndsAt) }

def submitProposal (s : Store) (periodHours : ℤ) (proposer proposalType : String)
    (payload : Payload) (now : Instant) : Except Error (Proposal × Store) := do
  match ProposalType.parse proposalType with
  | none => throw (.invalidProposalType proposalType)
  | some type =>
    checkPayload type payload
    if s.isCommitteeMember proposer = false then throw (.proposerNotMember proposer)
    else
      let votingEndsAt := now + hours periodHours
      pure (newProposal type payload proposer now votingEndsAt (s.proposals.sequence + 1),
        s.insertProposal type payload proposer now votingEndsAt)

def castVote (s : Store) (id : ℕ) (voter decision : String) (now : Instant) :
    Except Error (Vote × Store) :=
  match Decision.parse decision with
  | none => throw (.invalidDecision decision)
  | some decision =>
    if s.isCommitteeMember voter = false then throw (.voterNotMember voter)
    else
      match s.proposals.find? id with
      | none => throw (.proposalNotFound id)
      | some row =>
        if row.status ≠ .active then throw (.proposalNotActive id row.status)
        else if row.votingEndsAt < now then throw (.votingExpired id)
        else if ∃ v ∈ s.votes.rows, v.proposalId = id ∧ v.voter = voter then
          throw (.alreadyVoted voter id)
        else
          match s.votes.insert? ⟨id, voter, decision, now⟩ with
          | none => throw .integrityError
          | some votes => pure (⟨id, voter, decision, now⟩, { s with votes := votes })

structure TallyResult where
  proposalId : ℕ
  forCount : ℕ
  againstCount : ℕ
  abstainCount : ℕ
  committeeSize : ℕ
  quorumRequired : ℕ
  quorumMet : Bool
  outcome : Status
  deriving DecidableEq, Repr

def Store.countVotes (s : Store) (id : ℕ) (decision : Decision) : ℕ :=
  s.votes.rows.countP fun v => v.proposalId = id && v.decision = decision

def quorumRequired (committeeSize : ℕ) : ℕ := committeeSize / 2 + 1

def outcome (forCount committeeSize : ℕ) : Status :=
  if quorumRequired committeeSize ≤ forCount then .passed else .rejected

def tallyProposal (s : Store) (id : ℕ) : Except Error TallyResult :=
  match s.proposals.find? id with
  | none => throw (.proposalNotFound id)
  | some _ =>
    let forCount := s.countVotes id .support
    let committeeSize := s.committeeSize
    pure {
      proposalId := id
      forCount := forCount
      againstCount := s.countVotes id .against
      abstainCount := s.countVotes id .abstain
      committeeSize := committeeSize
      quorumRequired := quorumRequired committeeSize
      quorumMet := quorumRequired committeeSize ≤ forCount
      outcome := outcome forCount committeeSize }

def closeProposal (s : Store) (id : ℕ) : Except Error (Proposal × Store) :=
  match s.proposals.find? id with
  | none => throw (.proposalNotFound id)
  | some row =>
    if row.status ≠ .active then pure (row, s)
    else do
      let tally ← tallyProposal s id
      let s' := s.updateProposal id (.setStatus tally.outcome) (setStatus_id _)
      match s'.proposals.find? id with
      | none => throw (.proposalNotFound id)
      | some row => pure (row, s')

/-- The rows that `close_expired` goes on to close, from what it read at its start. -/
def Store.expired (s : Store) (now : Instant) : List ℕ :=
  (s.proposals.rows.filter fun p => p.status = .active && p.votingEndsAt < now).map Proposal.id

def closeEach (s : Store) : List ℕ → List Proposal × Store
  | [] => ([], s)
  | id :: ids =>
    match closeProposal s id with
    | .error _ => closeEach s ids
    | .ok (p, s') => ((p :: (closeEach s' ids).1), (closeEach s' ids).2)

def closeExpired (s : Store) (now : Instant) : List Proposal × Store :=
  closeEach s (s.expired now)

def recordSignoff (s : Store) (id : ℕ) (signer role : String) (evidence : Payload)
    (now : Instant) : Except Error (SignOff × Store) :=
  let evidence := evidence.filter fun kv => kv.2.truthy
  match s.proposals.find? id with
  | none => throw (.proposalNotFound id)
  | some row =>
    if row.status ≠ .active ∧ row.status ≠ .passed then throw (.signoffsClosed id row.status)
    else if role ∉ (APPROVAL_POLICIES row.proposalType).roles then
      throw (.roleNotInPolicy role row.proposalType)
    else if s.isCommitteeMember signer = false then throw (.signerNotMember signer)
    else if signer = row.proposer then throw .proposerCannotSign
    else
      match s.signoffs.insert? ⟨id, role, signer, evidence, now⟩ with
      | none => throw (.alreadySigned role signer)
      | some signoffs =>
        pure (⟨id, role, signer, evidence, now⟩, { s with signoffs := signoffs })

def buildApprovalChain (s : Store) (row : Proposal) : ApprovalChain :=
  let policy := APPROVAL_POLICIES row.proposalType
  let signoffs := s.signoffs.rows.filter fun so => so.proposalId = row.id
  let evidenceKinds := signoffs.flatMap fun so => so.evidence.map Prod.fst
  { proposalId := row.id
    proposalType := row.proposalType
    payload := row.payload
    proposer := row.proposer
    submittedAt := row.submittedAt
    status := row.status
    votes := s.votes.rows.filter fun v => v.proposalId = row.id
    signoffs := signoffs
    missingRoles := policy.roles.filter (· ∉ signoffs.map SignOff.role)
    missingEvidence := policy.evidence.filter (· ∉ evidenceKinds)
    executedAt := none }

def approvalChain (s : Store) (id : ℕ) : Except Error ApprovalChain :=
  match s.proposals.find? id with
  | none => throw (.proposalNotFound id)
  | some row => pure (buildApprovalChain s row)

def recordedApproval (s : Store) (id : ℕ) : Option ApprovalRecord :=
  s.approvalRecords.rows.find? fun r => r.proposalId = id

def targetField : ProposalType → Option String
  | .configChange => some "key"
  | .modelPromotion => some "model_name"
  | .committeeUpdate => none

def executedProposals (s : Store) (type : ProposalType) : List Proposal :=
  (s.proposals.rows.filter fun p => p.proposalType = type && p.status = .executed).mergeSort
    fun p q => q.executedAt.getD 0 < p.executedAt.getD 0 ||
      (p.executedAt = q.executedAt && q.id ≤ p.id)

def liveChangeApproval (s : Store) (proposalType target : String) :
    Except Error (Option ApprovalRecord) :=
  match ProposalType.parse proposalType with
  | none => throw (.invalidProposalType proposalType)
  | some type =>
    match targetField type with
    | none => throw (.invalidProposalType proposalType)
    | some field =>
      match (executedProposals s type).find? fun p =>
          p.payload.get? field = some (.text target) with
      | none => pure none
      | some p => pure (recordedApproval s p.id)

variable {Outside : Type}

/-- What the engine calls outside its database: the settings reloader and the model registry,
with the text of what they raise. -/
structure Services (Outside : Type) where
  apply : Outside → String → String → Outside × Option String
  listModelVersions : Outside → String → Except String (List String)
  rollbackModel : Outside → String → String → Outside × Option String
  bumpConfigVersion : Outside → Outside

/-- The database and what lies outside it. Two histories, oldest first, record by proposal which
outside changes took effect and which committee changes were committed. -/
structure World (Outside : Type) where
  store : Store
  outside : Outside
  changes : List ℕ
  memberships : List ℕ

def World.applied (w : World Outside) (id : ℕ) : ℕ := w.changes.count id + w.memberships.count id

/-- A value bound to a text column; 64 bits hold an integer. -/
def Value.bindText : Value → Option (Option String)
  | .null => some none
  | .bool b => some (some (if b then "1" else "0"))
  | .int i => if -2 ^ 63 ≤ i ∧ i < 2 ^ 63 then some (some (toString i)) else none
  | .real written => some (some written)
  | .text s => some (some s)
  | .compound _ _ => none

theorem member_clash_setActive (active : Bool) (a b : Member) :
    (Member.Clash { a with active := active } b → Member.Clash a b) ∧
      (Member.Clash a { b with active := active } → Member.Clash a b) :=
  ⟨id, id⟩

def Store.setActive (s : Store) (member : Option String) (active : Bool) : Store :=
  { s with
    committee := s.committee.update (fun m => member ≠ none ∧ m.member = member)
      (fun m => { m with active := active }) (member_clash_setActive active) }

def Store.enroll (s : Store) (member : Option String) (now : Instant) : Store :=
  { s with committee := s.committee.insertOrIgnore ⟨member, now, true⟩ }

/-- `INSERT OR REPLACE INTO runtime_config`. -/
def replaceEntry (config : List (String × String × Instant)) (entry : String × String × Instant) :
    List (String × String × Instant) :=
  (config.filter fun e => e.1 ≠ entry.1) ++ [entry]

def applyConfigChange (services : Services Outside) (w : World Outside) (row : Proposal)
    (now : Instant) : World Outside × Option EffectError :=
  match row.payload.get? "key", row.payload.get? "new_value" with
  | none, _ => (w, some (.missingKey "key"))
  | some _, none => (w, some (.missingKey "new_value"))
  | some key, some newValue =>
    match services.apply w.outside key.str newValue.str with
    | (outside, some text) => ({ w with outside := outside }, some (.raised text))
    | (outside, none) =>
      match w.store.runtimeConfig with
      | none =>
        ({ w with outside := outside, changes := w.changes ++ [row.id] }, some .noRuntimeConfig)
      | some config =>
        let config := replaceEntry config (key.str.toLower, newValue.str, now)
        ({ w with
            store := { w.store with runtimeConfig := some config }
            outside := outside
            changes := w.changes ++ [row.id] }, none)

def applyCommitteeUpdate (w : World Outside) (row : Proposal) (now : Instant) :
    World Outside × Option EffectError :=
  match row.payload.get? "action", row.payload.get? "member" with
  | none, _ => (w, some (.missingKey "action"))
  | some _, none => (w, some (.missingKey "member"))
  | some action, some member =>
    if action = .text "add" then
      match member.bindText with
      | none => (w, some .unsupportedValue)
      | some member =>
        ({ w with
            store := (w.store.enroll member now).setActive member true
            memberships := w.memberships ++ [row.id] }, none)
    else if action = .text "remove" then
      match member.bindText with
      | none => (w, some .unsupportedValue)
      | some member =>
        ({ w with
            store := w.store.setActive member false
            memberships := w.memberships ++ [row.id] }, none)
    else (w, some (.unknownCommitteeAction action))

def applyModelPromotion (services : Services Outside) (w : World Outside) (row : Proposal) :
    World Outside × Option EffectError :=
  match row.payload.get? "model_name", row.payload.get? "version" with
  | none, _ => (w, some (.missingKey "model_name"))
  | some _, none => (w, some (.missingKey "version"))
  | some name, some version =>
    match services.listModelVersions w.outside name.str with
    | .error text => (w, some (.raised text))
    | .ok versions =>
      if version.str ∉ versions then (w, some (.versionNotFound name.str version.str))
      else
        match services.rollbackModel w.outside name.str version.str with
        | (outside, some text) => ({ w with outside := outside }, some (.raised text))
        | (outside, none) =>
          ({ w with outside := outside, changes := w.changes ++ [row.id] }, none)

def applyEffect (services : Services Outside) (w : World Outside) (row : Proposal)
    (now : Instant) : World Outside × Option EffectError :=
  match row.proposalType with
  | .configChange => applyConfigChange services w row now
  | .committeeUpdate => applyCommitteeUpdate w row now
  | .modelPromotion => applyModelPromotion services w row

/-- One exclusive transaction. An approval record that is already there makes the last statement
raise: the transaction is rolled back, and what happened outside the database stays. -/
def executeProposal (services : Services Outside) (w : World Outside) (id : ℕ)
    (effectAt now : Instant) : Except Error Proposal × World Outside :=
  match w.store.proposals.find? id with
  | none => (.error (.proposalNotFound id), w)
  | some row =>
    if row.status ≠ .passed then (.error (.cannotBeExecuted id row.status), w)
    else
      let chain := buildApprovalChain w.store row
      if chain.missingRoles ≠ [] ∨ chain.missingEvidence ≠ [] then
        (.error (.missingApprovals id chain.missingRoles chain.missingEvidence), w)
      else
        match applyEffect services w row effectAt with
        | (w', some error) =>
          (.ok (row.finish .failed now (some error)),
            { w' with
              store := w'.store.updateProposal id (.finish .failed now (some error))
                (finish_id _ _ _) })
        | (w', none) =>
          let store := w'.store.updateProposal id (.finish .executed now none) (finish_id _ _ _)
          let record := { chain with status := .executed, executedAt := some now }
          match store.approvalRecords.insert? ⟨id, record, now⟩ with
          | none =>
            (.error .integrityError, { w' with store := w.store, memberships := w.memberships })
          | some records =>
            (.ok (row.finish .executed now none),
              { w' with
                store := { store with approvalRecords := records }
                outside :=
                  if row.proposalType = .configChange then services.bumpConfigVersion w'.outside
                  else w'.outside })

inductive LegacyError where
  | invalidProposalType (proposalType : String)
  | invalidVote (vote : String)
  | invalidProposalId
  | valueError (error : Error)
  deriving DecidableEq, Repr

def legacyPayload (proposalType proposedValue : String) : Option (String × Payload) :=
  if proposalType = "change_threshold" then
    some ("config_change",
      [("key", .text "RISK_SCORE_THRESHOLD"), ("new_value", .text proposedValue)])
  else if proposalType = "add_committee_member" then
    some ("committee_update", [("action", .text "add"), ("member", .text proposedValue)])
  else if proposalType = "remove_committee_member" then
    some ("committee_update", [("action", .text "remove"), ("member", .text proposedValue)])
  else none

structure GovernanceProposal where
  proposalId : ℕ
  proposalType : String
  proposedValue : String
  proposedByKeyHash : String
  votesFor : List String
  votesAgainst : List String
  status : String
  createdAt : Instant
  expiresAt : Instant
  deriving DecidableEq, Repr

def Proposal.proposedValue (p : Proposal) : String :=
  ((p.payload.get? "new_value").getD ((p.payload.get? "member").getD (.text ""))).str

def createProposal (s : Store) (proposalType proposedValue proposedByKeyHash : String)
    (daysValid : ℤ) (enrolledAt now : Instant) :
    Except LegacyError GovernanceProposal × Store :=
  match legacyPayload proposalType proposedValue with
  | none => (.error (.invalidProposalType proposalType), s)
  | some (type, payload) =>
    let s := s.enroll (some proposedByKeyHash) enrolledAt
    match submitProposal s (daysValid * 24) proposedByKeyHash type payload now with
    | .error e => (.error (.valueError e), s)
    | .ok (p, s') =>
      (.ok ⟨p.id, proposalType, proposedValue, proposedByKeyHash, [], [], "open", p.submittedAt,
        p.votingEndsAt⟩, s')

def listOpenProposals (s : Store) : List GovernanceProposal :=
  (s.proposals.rows.filter fun p => p.status = .active).map fun p =>
    ⟨p.id, p.proposalType.name, p.proposedValue, p.proposer, [], [], "open", p.submittedAt,
      p.votingEndsAt⟩

def Store.voters (s : Store) (id : ℕ) (decision : Decision) : List String :=
  (s.votes.rows.filter fun v => v.proposalId = id && v.decision = decision).map Vote.voter

/-- `proposalId` is what `int` reads in the given text. The voter is enrolled before the vote is
checked. -/
def castProposalVote (s : Store) (proposalId : Option ℕ) (voterKeyHash vote : String)
    (enrolledAt now : Instant) : Except LegacyError GovernanceProposal × Store :=
  if vote ≠ "for" ∧ vote ≠ "against" then (.error (.invalidVote vote), s)
  else
    match proposalId with
    | none => (.error .invalidProposalId, s)
    | some id =>
      let s := s.enroll (some voterKeyHash) enrolledAt
      match castVote s id voterKeyHash vote now with
      | .error e => (.error (.valueError e), s)
      | .ok (_, s') =>
        match s'.proposals.find? id with
        | none => (.error (.valueError (.proposalNotFound id)), s')
        | some p =>
          (.ok ⟨p.id, p.proposalType.name, p.proposedValue, p.proposer, s'.voters id .support,
            s'.voters id .against, p.status.name, p.submittedAt, p.votingEndsAt⟩, s')

end Governance
