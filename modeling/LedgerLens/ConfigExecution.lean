import LedgerLens.FallibleRuns
import LedgerLens.GovernanceRuns
import LedgerLens.SettingsReloader

/-!
# Executing a change of configuration

`execute_proposal` with the settings reloader inlined, and with every statement and file operation
able to fail. Without faults it is the execution of the governance engine.
-/
namespace ConfigExecution

open FallibleRuns Governance SettingsReloader

variable {Real : Type}

/-- Which of the steps raise, by the text of the exception. -/
structure Faults where
  beginExclusive : Option String
  readProposal : Option String
  approvalTables : Option String
  reloader : SettingsReloader.Faults
  runtimeConfig : Option String
  updateStatus : Option String
  recordApproval : Option String
  commit : Option String
  readBack : Option String

def Faults.none : Faults :=
  ⟨.none, .none, .none, .none, .none, .none, .none, .none, .none⟩

/-- How a call raises: a check refuses it, a statement fails, or one fails behind the commit. -/
inductive Raised where
  | refused (error : Error)
  | failed (text : String)
  | afterCommit (text : String)
  deriving DecidableEq, Repr

def run (fault : Option String) : Except Raised Unit :=
  match fault with
  | some text => .error (.failed text)
  | none => .ok ()

/-- The call up to the change, which reads only. -/
def ready (faults : Faults) (s : Store) (id : ℕ) : Except Raised Proposal := do
  run faults.beginExclusive
  run faults.readProposal
  match s.proposals.find? id with
  | none => throw (.refused (.proposalNotFound id))
  | some row =>
    if row.status ≠ .passed then throw (.refused (.cannotBeExecuted id row.status))
    run faults.approvalTables
    let chain := buildApprovalChain s row
    if chain.missingRoles ≠ [] ∨ chain.missingEvidence ≠ [] then
      throw (.refused (.missingApprovals id chain.missingRoles chain.missingEvidence))
    return row

def applyConfigChange (py : Builtins Real) (faults : Faults) (w : World (Live Real))
    (row : Proposal) (now : Instant) : World (Live Real) × Option EffectError :=
  match row.payload.get? "key", row.payload.get? "new_value" with
  | none, _ => (w, some (.missingKey "key"))
  | some _, none => (w, some (.missingKey "new_value"))
  | some key, some newValue =>
    match apply py faults.reloader w.outside key.str newValue.str with
    | (outside, some e) => ({ w with outside := outside }, some (.raised (e.text py)))
    | (outside, none) =>
      match faults.runtimeConfig with
      | some text =>
        ({ w with outside := outside, changes := w.changes ++ [row.id] }, some (.raised text))
      | none =>
        match w.store.runtimeConfig with
        | none =>
          ({ w with outside := outside, changes := w.changes ++ [row.id] }, some .noRuntimeConfig)
        | some config =>
          let config := replaceEntry config (key.str.toLower, newValue.str, now)
          ({ w with
              store := { w.store with runtimeConfig := some config }
              outside := outside
              changes := w.changes ++ [row.id] }, none)

def applyChange (py : Builtins Real) (services : Services (Live Real)) (faults : Faults)
    (w : World (Live Real)) (row : Proposal) (now : Instant) :
    World (Live Real) × Option EffectError :=
  match row.proposalType with
  | .configChange => applyConfigChange py faults w row now
  | .committeeUpdate => applyCommitteeUpdate w row now
  | .modelPromotion => applyModelPromotion services w row

/-- The statements behind the change, up to the commit. -/
def conclude (faults : Faults) (s : Store) (id : ℕ) (chain : ApprovalChain)
    (error : Option EffectError) (now : Instant) : Except Raised Store := do
  run faults.updateStatus
  let s := s.updateProposal id (.finish (finalStatus error) now error) (finish_id _ _ _)
  let s ← match error with
    | some _ => pure s
    | none => do
      run faults.recordApproval
      let chain := { chain with status := .executed, executedAt := some now }
      match s.approvalRecords.insert? ⟨id, chain, now⟩ with
      | none => throw (.refused .integrityError)
      | some records => pure { s with approvalRecords := records }
  run faults.commit
  return s

/-- What is not committed is rolled back, and what happened outside the database stays. -/
def executeProposal (py : Builtins Real) (services : Services (Live Real)) (faults : Faults)
    (w : World (Live Real)) (id : ℕ) (effectAt now : Instant) :
    Except Raised Proposal × World (Live Real) :=
  match ready faults w.store id with
  | .error e => (.error e, w)
  | .ok row =>
    let (w', error) := applyChange py services faults w row effectAt
    match conclude faults w'.store id (buildApprovalChain w.store row) error now with
    | .error e => (.error e, { w' with store := w.store, memberships := w.memberships })
    | .ok s =>
      match faults.readBack with
      | some text => (.error (.afterCommit text), { w' with store := s })
      | none =>
        (.ok (row.finish (finalStatus error) now error),
          { w' with
            store := s
            outside :=
              if error = none ∧ row.proposalType = .configChange then
                services.bumpConfigVersion w'.outside
              else w'.outside })

def reloading (py : Builtins Real) (services : Services (Live Real)) : Services (Live Real) :=
  { services with
    apply := fun outside key newValue =>
      let applied := apply py .none outside key newValue
      (applied.1, applied.2.map (ApplyError.text py)) }

section

variable {py : Builtins Real} {services : Services (Live Real)} {faults : Faults}
  {w : World (Live Real)} {row : Proposal} {id : ℕ} {effectAt now : Instant}

theorem applyConfigChange_none (py : Builtins Real) (services : Services (Live Real))
    (w : World (Live Real)) (row : Proposal) (now : Instant) :
    applyConfigChange py .none w row now =
      Governance.applyConfigChange (reloading py services) w row now := by
  rw [applyConfigChange, Governance.applyConfigChange, reloading]
  cases row.payload.get? "key" with
  | none => rfl
  | some key =>
    cases row.payload.get? "new_value" with
    | none => rfl
    | some newValue =>
      have hfaults : Faults.none.reloader = SettingsReloader.Faults.none := rfl
      dsimp only
      rw [hfaults]
      rcases apply py SettingsReloader.Faults.none w.outside key.str newValue.str with
        ⟨outside, _ | e⟩
      · rfl
      · rfl

theorem applyChange_none (py : Builtins Real) (services : Services (Live Real))
    (w : World (Live Real)) (row : Proposal) (now : Instant) :
    applyChange py services .none w row now = applyEffect (reloading py services) w row now := by
  rw [applyChange, applyEffect]
  cases row.proposalType with
  | configChange => exact applyConfigChange_none py services w row now
  | committeeUpdate => rfl
  | modelPromotion => rfl

theorem conclude_none (s : Store) (id : ℕ) (chain : ApprovalChain) (now : Instant) :
    conclude .none s id chain none now =
      match (s.updateProposal id (.finish .executed now none)
          (finish_id _ _ _)).approvalRecords.insert?
            ⟨id, { chain with status := .executed, executedAt := some now }, now⟩ with
      | none => .error (.refused .integrityError)
      | some records => .ok
          { s.updateProposal id (.finish .executed now none) (finish_id _ _ _) with
            approvalRecords := records } := by
  rw [conclude]
  simp only [run, Faults.none, finalStatus]
  cases (s.updateProposal id (.finish .executed now none) (finish_id _ _ _)).approvalRecords.insert?
      ⟨id, { chain with status := .executed, executedAt := some now }, now⟩ with
  | none => rfl
  | some records => rfl

theorem ready_none (s : Store) (id : ℕ) : ready .none s id =
    match s.proposals.find? id with
    | none => .error (.refused (.proposalNotFound id))
    | some row =>
      if row.status ≠ .passed then .error (.refused (.cannotBeExecuted id row.status))
      else if (buildApprovalChain s row).missingRoles ≠ [] ∨
          (buildApprovalChain s row).missingEvidence ≠ [] then
        .error (.refused (.missingApprovals id (buildApprovalChain s row).missingRoles
          (buildApprovalChain s row).missingEvidence))
      else .ok row := by
  rw [ready]
  cases s.proposals.find? id with
  | none => rfl
  | some row =>
    dsimp only
    split_ifs <;> rfl

/-- Without faults the execution is that of the governance engine. -/
theorem executeProposal_none (py : Builtins Real) (services : Services (Live Real))
    (w : World (Live Real)) (id : ℕ) (effectAt now : Instant) :
    executeProposal py services .none w id effectAt now =
      (((Governance.executeProposal (reloading py services) w id effectAt now).1.mapError .refused),
        (Governance.executeProposal (reloading py services) w id effectAt now).2) := by
  rw [executeProposal, Governance.executeProposal]
  rw [ready_none]
  cases w.store.proposals.find? id with
  | none => rfl
  | some row =>
    dsimp only
    by_cases hstatus : row.status ≠ .passed
    · rw [if_pos hstatus, if_pos hstatus]
      rfl
    rw [if_neg hstatus, if_neg hstatus]
    by_cases hmissing : (buildApprovalChain w.store row).missingRoles ≠ [] ∨
        (buildApprovalChain w.store row).missingEvidence ≠ []
    · rw [if_pos hmissing, if_pos hmissing]
      rfl
    rw [if_neg hmissing, if_neg hmissing]
    dsimp only
    rw [applyChange_none]
    rcases applyEffect (reloading py services) w row effectAt with ⟨w', _ | error⟩
    · dsimp only
      rw [conclude_none]
      cases (w'.store.updateProposal id (.finish .executed now none)
        (finish_id _ _ _)).approvalRecords.insert? ⟨id, { buildApprovalChain w.store row with
          status := .executed, executedAt := some now }, now⟩ with
      | none => rfl
      | some records =>
        simp only [true_and]
        rfl
    · rfl

def Valid (py : Builtins Real) (payload : Payload) : Prop :=
  ∃ key newValue parsed, payload.get? "key" = some key ∧ payload.get? "new_value" = some newValue ∧
    check py key.str newValue.str = .ok parsed

def Reloads (py : Builtins Real) (faults : Faults) (w : World (Live Real)) (payload : Payload) :
    Prop :=
  ∃ key newValue, payload.get? "key" = some key ∧ payload.get? "new_value" = some newValue ∧
    (apply py faults.reloader w.outside key.str newValue.str).2 = none

def Fails : Except Raised Proposal → Prop
  | .error (.afterCommit _) => False
  | .error _ => True
  | .ok p => p.status = .failed

inductive Changes (py : Builtins Real) (faults : Faults) (w : World (Live Real)) (row : Proposal) :
    World (Live Real) × Option EffectError → Prop where
  | unnamed (error) :
      (∀ key newValue, row.payload.get? "key" = some key →
        row.payload.get? "new_value" ≠ some newValue) →
      Changes py faults w row (w, some error)
  | notReloaded (key newValue outside e) : row.payload.get? "key" = some key →
      row.payload.get? "new_value" = some newValue →
      apply py faults.reloader w.outside key.str newValue.str = (outside, some e) →
      Changes py faults w row ({ w with outside := outside }, some (.raised (e.text py)))
  | notWritten (key newValue outside error) : row.payload.get? "key" = some key →
      row.payload.get? "new_value" = some newValue →
      apply py faults.reloader w.outside key.str newValue.str = (outside, none) →
      Changes py faults w row
        ({ w with outside := outside, changes := w.changes ++ [row.id] }, some error)
  | written (key newValue outside config) : row.payload.get? "key" = some key →
      row.payload.get? "new_value" = some newValue →
      apply py faults.reloader w.outside key.str newValue.str = (outside, none) →
      Changes py faults w row
        ({ w with
            store := { w.store with runtimeConfig := some config }
            outside := outside
            changes := w.changes ++ [row.id] }, none)

theorem applyConfigChange_changes (py : Builtins Real) (faults : Faults) (w : World (Live Real))
    (row : Proposal) (now : Instant) :
    Changes py faults w row (applyConfigChange py faults w row now) := by
  rw [applyConfigChange]
  cases hkey : row.payload.get? "key" with
  | none => exact .unnamed _ fun _ _ h => by rw [hkey] at h; cases h
  | some key =>
    cases hvalue : row.payload.get? "new_value" with
    | none => exact .unnamed _ fun _ _ _ h => by rw [hvalue] at h; cases h
    | some newValue =>
      dsimp only
      rcases happly : apply py faults.reloader w.outside key.str newValue.str with
        ⟨outside, _ | e⟩
      · dsimp only
        split
        · exact .notWritten key newValue outside _ hkey hvalue happly
        · split
          · exact .notWritten key newValue outside _ hkey hvalue happly
          · exact .written key newValue outside _ hkey hvalue happly
      · exact .notReloaded key newValue outside e hkey hvalue happly

variable {result : World (Live Real) × Option EffectError}

theorem Changes.store_eq (h : Changes py faults w row result) {error : EffectError}
    (herror : result.2 = some error) : result.1.store = w.store := by
  cases h with
  | unnamed => rfl
  | notReloaded => rfl
  | notWritten => rfl
  | written => cases herror

theorem outside_of_invalid {key newValue : Value} {outside : Live Real} {e : Option ApplyError}
    (hkey : row.payload.get? "key" = some key)
    (hvalue : row.payload.get? "new_value" = some newValue)
    (happly : apply py faults.reloader w.outside key.str newValue.str = (outside, e))
    (hvalid : ¬ Valid py row.payload) : outside = w.outside := by
  cases hcheck : check py key.str newValue.str with
  | error e =>
    rw [apply_of_check_error hcheck] at happly
    exact (Prod.mk.inj happly).1.symm
  | ok parsed => exact absurd ⟨key, newValue, parsed, hkey, hvalue, hcheck⟩ hvalid

theorem Changes.outside_eq (h : Changes py faults w row result) (hvalid : ¬ Valid py row.payload) :
    result.1.outside = w.outside := by
  cases h with
  | unnamed => rfl
  | notReloaded key newValue outside e hkey hvalue happly =>
    exact outside_of_invalid hkey hvalue happly hvalid
  | notWritten key newValue outside error hkey hvalue happly =>
    exact outside_of_invalid hkey hvalue happly hvalid
  | written key newValue outside config hkey hvalue happly =>
    exact outside_of_invalid hkey hvalue happly hvalid

theorem Changes.env_eq (h : Changes py faults w row result)
    (hreloads : ¬ Reloads py faults w row.payload) :
    result.1.outside.env = w.outside.env := by
  cases h with
  | unnamed => rfl
  | notReloaded key newValue outside e hkey hvalue happly =>
    have henv := apply_env (congrArg Prod.snd happly)
    rw [happly] at henv
    exact henv
  | notWritten key newValue outside error hkey hvalue happly =>
    exact absurd ⟨key, newValue, hkey, hvalue, congrArg Prod.snd happly⟩ hreloads
  | written key newValue outside config hkey hvalue happly =>
    exact absurd ⟨key, newValue, hkey, hvalue, congrArg Prod.snd happly⟩ hreloads

theorem ready_eq_ok {s : Store} (h : ready faults s id = .ok row) :
    s.proposals.find? id = some row := by
  unfold ready at h
  obtain ⟨_, -, h⟩ := bind_eq_ok.mp h
  obtain ⟨_, -, h⟩ := bind_eq_ok.mp h
  cases hfind : s.proposals.find? id with
  | none =>
    rw [hfind] at h
    cases h
  | some found =>
    rw [hfind] at h
    dsimp only at h
    by_cases hstatus : found.status ≠ .passed
    · rw [if_pos hstatus] at h
      cases h
    rw [if_neg hstatus] at h
    obtain ⟨_, -, h⟩ := bind_eq_ok.mp h
    by_cases hmissing : (buildApprovalChain s found).missingRoles ≠ [] ∨
        (buildApprovalChain s found).missingEvidence ≠ []
    · rw [if_pos hmissing] at h
      cases h
    rw [if_neg hmissing] at h
    exact congrArg some (Except.ok.inj h)

theorem conclude_eq_ok {s s' : Store} {chain : ApprovalChain} {error : EffectError}
    (h : conclude faults s id chain (some error) now = .ok s') :
    s' = s.updateProposal id (.finish .failed now (some error)) (finish_id _ _ _) := by
  unfold conclude at h
  obtain ⟨_, -, h⟩ := bind_eq_ok.mp h
  obtain ⟨updated, hupdated, h⟩ := bind_eq_ok.mp h
  obtain ⟨_, -, h⟩ := bind_eq_ok.mp h
  obtain rfl := Except.ok.inj hupdated
  exact (Except.ok.inj h).symm

end

/-- A failed execution of a change of configuration leaves `runtime_config` as it was. Either the
call raises and the whole database is as before, or the proposal has failed with the error and
nothing else in the database has changed. A refused call leaves everything as it was, a failed
validation the settings and the files, and a failure of the reloader the file. -/
theorem failed_execution (py : Builtins Real) (services : Services (Live Real)) (faults : Faults)
    (w : World (Live Real)) (id : ℕ) (effectAt now : Instant) (row : Proposal)
    (hrow : w.store.proposals.find? id = some row) (htype : row.proposalType = .configChange)
    (hfails : Fails (executeProposal py services faults w id effectAt now).1) :
    let done := executeProposal py services faults w id effectAt now
    done.2.store.runtimeConfig = w.store.runtimeConfig ∧
    ((∃ e, done.1 = .error e ∧ done.2.store = w.store) ∨
      ∃ error, done.1 = .ok (row.finish .failed now (some error)) ∧ done.2.store =
        w.store.updateProposal id (.finish .failed now (some error)) (finish_id _ _ _)) ∧
    (∀ e, ready faults w.store id = .error e → done = (.error e, w)) ∧
    (¬ Valid py row.payload → done.2.outside = w.outside) ∧
    (¬ Reloads py faults w row.payload → done.2.outside.env = w.outside.env) := by
  rw [executeProposal] at hfails ⊢
  cases hready : ready faults w.store id with
  | error e =>
    dsimp only
    exact ⟨rfl, .inl ⟨e, rfl, rfl⟩, fun e' h => by rw [Except.error.inj h], fun _ => rfl,
      fun _ => rfl⟩
  | ok found =>
    obtain rfl := Option.some.inj ((ready_eq_ok hready).symm.trans hrow)
    have hchange : applyChange py services faults w found effectAt =
        applyConfigChange py faults w found effectAt := by
      rw [applyChange, htype]
    have hchanges := applyConfigChange_changes py faults w found effectAt
    rw [hready] at hfails
    dsimp only at hfails ⊢
    rw [hchange] at hfails ⊢
    generalize applyConfigChange py faults w found effectAt = result at hchanges hfails ⊢
    obtain ⟨w', error⟩ := result
    dsimp only at hfails ⊢
    cases hconclude : conclude faults w'.store id (buildApprovalChain w.store found) error now with
    | error e =>
      dsimp only
      exact ⟨rfl, .inl ⟨e, rfl, rfl⟩, (fun _ h => nomatch h), hchanges.outside_eq, hchanges.env_eq⟩
    | ok s =>
      rw [hconclude] at hfails
      cases hreadBack : faults.readBack with
      | some text =>
        rw [hreadBack] at hfails
        exact hfails.elim
      | none =>
        rw [hreadBack] at hfails
        cases error with
        | none => cases hfails
        | some error =>
          have hstore := hchanges.store_eq rfl
          obtain rfl := conclude_eq_ok hconclude
          dsimp only at hstore ⊢
          rw [hstore]
          have hnone : ¬ (some error = none ∧ found.proposalType = .configChange) :=
            fun h => nomatch h.1
          rw [if_neg hnone]
          exact ⟨rfl, .inr ⟨error, rfl, rfl⟩, (fun _ h => nomatch h), hchanges.outside_eq,
            hchanges.env_eq⟩

def quiet : Services (Live ℕ) where
  apply outside _ _ := (outside, none)
  listModelVersions _ _ := .ok []
  rollbackModel outside _ _ := (outside, none)
  bumpConfigVersion outside := outside

def unreadable : Payload :=
  [("key", .text "RISK_SCORE_THRESHOLD"), ("new_value", .text "abc")]

/-- The proposal has two of three votes and both sign-offs, and has passed. -/
def unreadablePassed : World (Live ℕ) :=
  [.submitProposal "ana" "config_change" unreadable 10,
    .castVote 1 "ana" "for" 20,
    .castVote 1 "ben" "for" 30,
    .recordSignoff 1 "ben" "risk_owner" [("impact_analysis", .text "report")] 40,
    .recordSignoff 1 "eva" "compliance_officer" [] 50,
    .closeProposal 1].foldl (next quiet) (initial threeMembers (some []) (liveWith none))

def unreadableRow : Proposal :=
  ⟨1, .configChange, unreadable, "ana", .passed, 10, 10 + hours 72, none, none⟩

def unreadableDone : Except Raised Proposal × World (Live ℕ) :=
  executeProposal decimals quiet .none unreadablePassed 1 60 70

theorem unreadable_found :
    unreadablePassed.store.proposals.find? 1 = some unreadableRow := by decide +kernel

theorem unreadable_fails : Fails unreadableDone.1 := by
  have hstatus : unreadableDone.1.toOption.map Proposal.status = some .failed := by decide +kernel
  cases hresult : unreadableDone.1 with
  | error e =>
    rw [hresult] at hstatus
    cases hstatus
  | ok p =>
    rw [hresult] at hstatus
    exact Option.some.inj hstatus

theorem failed_execution_unreadable :
    unreadableDone.2.store.runtimeConfig = unreadablePassed.store.runtimeConfig :=
  (failed_execution decimals quiet .none unreadablePassed 1 60 70 unreadableRow unreadable_found rfl
    unreadable_fails).1

/-- The proposal is failed afterwards and was not before. -/
theorem failed_validation_sets_status :
    Fails unreadableDone.1 ∧
      (unreadablePassed.store.proposals.find? 1).map Proposal.status = some .passed ∧
      (unreadableDone.2.store.proposals.find? 1).map Proposal.status = some .failed := by
  refine ⟨unreadable_fails, ?_, ?_⟩
  · rw [unreadable_found]
    rfl
  · decide +kernel

end ConfigExecution
