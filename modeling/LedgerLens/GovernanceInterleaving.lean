import LedgerLens.GovernanceApprovals

/-!
# Interleaved governance calls

Any number of callers, each running its call statement by statement on one database. Execution
is a single exclusive transaction; every other statement commits by itself.
-/
namespace Governance

open LabelledRuns SqlTables

variable {Outside : Type}

inductive Call where
  | submitProposal (proposer proposalType : String) (payload : Payload)
  | submitInsert (proposalType : ProposalType) (payload : Payload) (proposer : String)
  | castVote (id : ℕ) (voter decision : String)
  | voteFind (id : ℕ) (voter : String) (decision : Decision)
  | voteExisting (v : Vote)
  | voteInsert (v : Vote)
  | recordSignoff (id : ℕ) (signer role : String) (evidence : Payload)
  | signoffMember (id : ℕ) (signer role : String) (evidence : Payload) (proposer : String)
  | signoffInsert (id : ℕ) (signer role : String) (evidence : Payload)
  | closeProposal (id : ℕ)
  | tallyFind (id : ℕ)
  | tallyVotes (id : ℕ)
  | tallySize (id forCount : ℕ)
  | closeUpdate (id : ℕ) (outcome : Status)
  | closeReread (id : ℕ)
  | closeExpired (now : Instant)
  | executeProposal (id : ℕ)
  deriving DecidableEq, Repr

def Call.entry : Call → Bool
  | .submitProposal .. | .castVote .. | .recordSignoff .. | .closeProposal .. | .closeExpired ..
  | .executeProposal .. => true
  | _ => false

/-- One statement at the given times: the database afterwards and what is left of the call. A
call that raises is over; `close_expired` goes on with the next proposal. -/
def statement (services : Services Outside) (w : World Outside) (effectAt now : Instant) :
    Call → World Outside × List Call
  | .submitProposal proposer proposalType payload =>
    match ProposalType.parse proposalType with
    | none => (w, [])
    | some type =>
      match checkPayload type payload with
      | .error _ => (w, [])
      | .ok _ =>
        if w.store.isCommitteeMember proposer = false then (w, [])
        else (w, [.submitInsert type payload proposer])
  | .submitInsert type payload proposer =>
    ({ w with
        store := w.store.insertProposal type payload proposer now
          (now + hours VOTING_PERIOD_HOURS) }, [])
  | .castVote id voter decision =>
    match Decision.parse decision with
    | none => (w, [])
    | some decision =>
      if w.store.isCommitteeMember voter = false then (w, [])
      else (w, [.voteFind id voter decision])
  | .voteFind id voter decision =>
    match w.store.proposals.find? id with
    | none => (w, [])
    | some row =>
      if row.status ≠ .active then (w, [])
      else if row.votingEndsAt < now then (w, [])
      else (w, [.voteExisting ⟨id, voter, decision, now⟩])
  | .voteExisting v =>
    if ∃ v' ∈ w.store.votes.rows, v'.proposalId = v.proposalId ∧ v'.voter = v.voter then (w, [])
    else (w, [.voteInsert v])
  | .voteInsert v =>
    match w.store.votes.insert? v with
    | none => (w, [])
    | some votes => ({ w with store := { w.store with votes := votes } }, [])
  | .recordSignoff id signer role evidence =>
    match w.store.proposals.find? id with
    | none => (w, [])
    | some row =>
      if row.status ≠ .active ∧ row.status ≠ .passed then (w, [])
      else if role ∉ (APPROVAL_POLICIES row.proposalType).roles then (w, [])
      else (w, [.signoffMember id signer role (evidence.filter fun kv => kv.2.truthy) row.proposer])
  | .signoffMember id signer role evidence proposer =>
    if w.store.isCommitteeMember signer = false then (w, [])
    else if signer = proposer then (w, [])
    else (w, [.signoffInsert id signer role evidence])
  | .signoffInsert id signer role evidence =>
    match w.store.signoffs.insert? ⟨id, role, signer, evidence, now⟩ with
    | none => (w, [])
    | some signoffs => ({ w with store := { w.store with signoffs := signoffs } }, [])
  | .closeProposal id =>
    match w.store.proposals.find? id with
    | none => (w, [])
    | some row => if row.status ≠ .active then (w, []) else (w, [.tallyFind id])
  | .tallyFind id =>
    match w.store.proposals.find? id with
    | none => (w, [])
    | some _ => (w, [.tallyVotes id])
  | .tallyVotes id => (w, [.tallySize id (w.store.countVotes id .support)])
  | .tallySize id forCount => (w, [.closeUpdate id (outcome forCount w.store.committeeSize)])
  | .closeUpdate id outcome =>
    ({ w with store := w.store.updateProposal id (.setStatus outcome) (setStatus_id _) },
      [.closeReread id])
  | .closeReread _ => (w, [])
  | .closeExpired now => (w, (w.store.expired now).map .closeProposal)
  | .executeProposal id => ((executeProposal services w id effectAt now).2, [])

/-- The database and what every caller still has to run. -/
structure Machine (Outside Caller : Type) where
  world : World Outside
  calls : Caller → List Call

/-- A statement that fails, on a locked database for one, ends its caller's call. -/
inductive Turn (Caller : Type) where
  | start (c : Caller) (call : Call)
  | statement (c : Caller) (effectAt now : Instant)
  | abort (c : Caller)

def Status.Terminal (s : Status) : Prop := s = .executed ∨ s = .rejected ∨ s = .failed

section Machine

variable {Caller : Type} [DecidableEq Caller]

def Machine.start (w : World Outside) : Machine Outside Caller := ⟨w, fun _ => []⟩

def turn (services : Services Outside) (m : Machine Outside Caller) :
    Turn Caller → Option (Machine Outside Caller)
  | .start c call =>
    if call.entry = true ∧ m.calls c = [] then
      some { m with calls := Function.update m.calls c [call] }
    else none
  | .statement c effectAt now =>
    match m.calls c with
    | [] => none
    | call :: rest =>
      let (w, calls) := statement services m.world effectAt now call
      some ⟨w, Function.update m.calls c (calls ++ rest)⟩
  | .abort c => some { m with calls := Function.update m.calls c [] }

def Turns (services : Services Outside) (m : Machine Outside Caller) (e : Turn Caller)
    (m' : Machine Outside Caller) : Prop := turn services m e = some m'

/-- A close does not write its tally over a terminal status, unless it is the same. -/
def ClosesInTime (m : Machine Outside Caller) : Turn Caller → Prop
  | .statement c _ _ => ∀ id outcome rest row, m.calls c = .closeUpdate id outcome :: rest →
      m.world.store.proposals.find? id = some row → row.status.Terminal → outcome = row.status
  | _ => True

end Machine

instance (s : Status) : Decidable s.Terminal := inferInstanceAs (Decidable (_ ∨ _))

def closing : List Call → Option (ℕ × Status)
  | .closeUpdate id outcome :: _ => some (id, outcome)
  | _ => none

theorem closesInTime_iff {Caller : Type} {m : Machine Outside Caller} {c : Caller}
    {effectAt now : Instant} : ClosesInTime m (.statement c effectAt now) ↔
      ∀ p ∈ closing (m.calls c), ∀ row ∈ m.world.store.proposals.find? p.1,
        row.status.Terminal → p.2 = row.status := by
  constructor
  · rintro h ⟨id, status⟩ hclosing row hrow
    generalize hcalls : m.calls c = calls at hclosing
    unfold closing at hclosing
    split at hclosing
    · cases hclosing
      exact h _ _ _ row hcalls hrow
    · cases hclosing
  · intro h id status rest row hcalls hrow
    rw [hcalls] at h
    exact h (id, status) rfl row hrow

instance {Caller : Type} (m : Machine Outside Caller) : DecidablePred (ClosesInTime m)
  | .statement .. => decidable_of_iff' _ closesInTime_iff
  | .start .. => .isTrue trivial
  | .abort _ => .isTrue trivial

def KeepsTerminal (s s' : Store) : Prop :=
  ∀ id p, s.proposals.find? id = some p → p.status.Terminal →
    ∃ p', s'.proposals.find? id = some p' ∧ p'.status = p.status

theorem KeepsTerminal.refl (s : Store) : KeepsTerminal s s := fun _ p hp _ => ⟨p, hp, rfl⟩

theorem KeepsTerminal.trans {s t u : Store} (h : KeepsTerminal s t) (h' : KeepsTerminal t u) :
    KeepsTerminal s u := by
  intro id p hp hterminal
  obtain ⟨p', hp', heq⟩ := h id p hp hterminal
  obtain ⟨p'', hp'', heq'⟩ := h' id p' hp' (heq ▸ hterminal)
  exact ⟨p'', hp'', heq'.trans heq⟩

inductive StatementWrites (services : Services Outside) (w : World Outside) :
    Call → World Outside → Prop where
  | nothing {call} : StatementWrites services w call w
  | proposal {call} (type payload proposer now votingEndsAt) : StatementWrites services w call
      { w with store := w.store.insertProposal type payload proposer now votingEndsAt }
  | vote {call} (votes) : StatementWrites services w call
      { w with store := { w.store with votes := votes } }
  | signoff {call} (signoffs) : StatementWrites services w call
      { w with store := { w.store with signoffs := signoffs } }
  | close (id outcome) : StatementWrites services w (.closeUpdate id outcome)
      { w with store := w.store.updateProposal id (.setStatus outcome) (setStatus_id _) }
  | execute (id effectAt now) : StatementWrites services w (.executeProposal id)
      (executeProposal services w id effectAt now).2

theorem statement_writes (services : Services Outside) (w : World Outside)
    (effectAt now : Instant) (call : Call) :
    StatementWrites services w call (statement services w effectAt now call).1 := by
  cases call with
  | submitInsert => exact .proposal _ _ _ _ _
  | closeUpdate => exact .close _ _
  | executeProposal => exact .execute _ _ _
  | voteInsert v =>
    simp only [statement]
    split
    · exact .nothing
    · exact .vote _
  | signoffInsert =>
    simp only [statement]
    split
    · exact .nothing
    · exact .signoff _
  | _ =>
    simp only [statement]
    repeat' split
    all_goals exact .nothing

theorem keepsTerminal_setStatus_iff {s : Store} {id : ℕ} {outcome : Status} :
    KeepsTerminal s (s.updateProposal id (.setStatus outcome) (setStatus_id _)) ↔
      ∀ row, s.proposals.find? id = some row → row.status.Terminal → outcome = row.status := by
  constructor
  · intro h row hrow hterminal
    obtain ⟨p, hp, hstatus⟩ := h id row hrow hterminal
    rw [find?_updateProposal, if_pos rfl, hrow] at hp
    obtain rfl := Option.some.inj hp
    exact hstatus
  · intro h id' p hp hterminal
    by_cases hid : id' = id
    · subst hid
      refine ⟨p.setStatus outcome, ?_, h p hp hterminal⟩
      rw [find?_updateProposal, if_pos rfl, hp]
      rfl
    · refine ⟨p, ?_, rfl⟩
      rw [find?_updateProposal, if_neg hid]
      exact hp

theorem keepsTerminal_executes {services : Services Outside} {w w' : World Outside} {id : ℕ}
    {effectAt now : Instant} {row : Proposal} {error : Option EffectError}
    (h : Executes services w w' id effectAt now row error) : KeepsTerminal w.store w'.store := by
  intro id' p hp hterminal
  by_cases hid : id' = id
  · subst hid
    obtain rfl := Option.some.inj (h.found.symm.trans hp)
    rw [h.passed] at hterminal
    rcases hterminal with h | h | h <;> cases h
  · exact ⟨p, (h.find?_other hid).trans hp, rfl⟩

theorem statement_keepsTerminal {services : Services Outside} {w w' : World Outside} {call : Call}
    (h : StatementWrites services w call w')
    (hclose : ∀ id outcome row, call = .closeUpdate id outcome →
      w.store.proposals.find? id = some row → row.status.Terminal → outcome = row.status) :
    KeepsTerminal w.store w'.store := by
  cases h with
  | nothing => exact .refl _
  | proposal => exact fun id p hp _ => ⟨p, find?_insertProposal hp, rfl⟩
  | vote => exact fun id p hp _ => ⟨p, hp, rfl⟩
  | signoff => exact fun id p hp _ => ⟨p, hp, rfl⟩
  | close id outcome =>
    exact keepsTerminal_setStatus_iff.mpr fun row hrow => hclose id outcome row rfl hrow
  | execute id effectAt now =>
    rcases executeProposal_cases services w id effectAt now with heq | ⟨-, -, heq⟩ | ⟨_, _, hexec⟩
    · rw [heq]
      exact .refl _
    · rw [heq]
      exact .refl _
    · exact keepsTerminal_executes hexec

structure AppliedOnce (w : World Outside) : Prop where
  once : ∀ id, w.applied id ≤ 1
  finished : ∀ id, w.applied id ≠ 0 → ∃ p, w.store.proposals.find? id = some p ∧ p.status.Terminal
  recorded : ∀ record ∈ w.store.approvalRecords.rows,
    ∃ p, w.store.proposals.find? record.proposalId = some p ∧ p.status.Terminal

theorem AppliedOnce.keep {w w' : World Outside} (h : AppliedOnce w)
    (hkeep : KeepsTerminal w.store w'.store) (happlied : ∀ id, w'.applied id = w.applied id)
    (hrecords : w'.store.approvalRecords = w.store.approvalRecords) : AppliedOnce w' := by
  have hstill {id : ℕ} (hold : ∃ p, w.store.proposals.find? id = some p ∧ p.status.Terminal) :
      ∃ p, w'.store.proposals.find? id = some p ∧ p.status.Terminal := by
    obtain ⟨p, hp, hterminal⟩ := hold
    obtain ⟨p', hp', heq⟩ := hkeep id p hp hterminal
    exact ⟨p', hp', heq ▸ hterminal⟩
  constructor
  · intro id
    rw [happlied]
    exact h.once id
  · intro id hid
    rw [happlied] at hid
    exact hstill (h.finished id hid)
  · intro record hrecord
    rw [hrecords] at hrecord
    exact hstill (h.recorded record hrecord)

theorem finalStatus_terminal (error : Option EffectError) : (finalStatus error).Terminal := by
  cases error with
  | none => exact .inl rfl
  | some error => exact .inr (.inr rfl)

theorem AppliedOnce.execute {services : Services Outside} {w w' : World Outside} {id : ℕ}
    {effectAt now : Instant} {row : Proposal} {error : Option EffectError} (h : AppliedOnce w)
    (hexec : Executes services w w' id effectAt now row error) : AppliedOnce w' := by
  have hid : row.id = id := (IdTable.find?_eq_some.mp hexec.found).2
  have hfresh : w.applied id = 0 := by
    by_contra happlied
    obtain ⟨p, hp, hterminal⟩ := h.finished id happlied
    obtain rfl := Option.some.inj (hexec.found.symm.trans hp)
    rw [hexec.passed] at hterminal
    rcases hterminal with h | h | h <;> cases h
  have happlied (id' : ℕ) : w'.applied id' ≤ w.applied id' + if id' = id then 1 else 0 := by
    have hle := applyEffect_applied services w row effectAt id'
    rw [hid] at hle
    rw [World.applied, hexec.changes, hexec.memberships]
    exact hle
  have hdone : ∃ p, w'.store.proposals.find? id = some p ∧ p.status.Terminal :=
    ⟨_, hexec.find?_self, finalStatus_terminal error⟩
  have hstill (id' : ℕ) (hold : ∃ p, w.store.proposals.find? id' = some p ∧ p.status.Terminal) :
      ∃ p, w'.store.proposals.find? id' = some p ∧ p.status.Terminal := by
    obtain ⟨p, hp, hterminal⟩ := hold
    obtain ⟨p', hp', heq⟩ := keepsTerminal_executes hexec id' p hp hterminal
    exact ⟨p', hp', heq ▸ hterminal⟩
  constructor
  · intro id'
    have hle := happlied id'
    by_cases heq : id' = id
    · subst heq
      rw [hfresh, if_pos rfl] at hle
      exact hle
    · rw [if_neg heq] at hle
      exact hle.trans (h.once id')
  · intro id' hne
    by_cases heq : id' = id
    · exact heq ▸ hdone
    · have hle := happlied id'
      rw [if_neg heq] at hle
      exact hstill id' (h.finished id' (by omega))
  · intro record hrecord
    have hrecorded := hexec.recorded
    split_ifs at hrecorded
    · rw [hrecorded] at hrecord
      rcases List.mem_append.mp hrecord with hrecord | hrecord
      · exact hstill _ (h.recorded record hrecord)
      · obtain rfl := List.mem_singleton.mp hrecord
        exact hdone
    · rw [hrecorded] at hrecord
      exact hstill _ (h.recorded record hrecord)

theorem statement_appliedOnce {services : Services Outside} {w w' : World Outside} {call : Call}
    (h : AppliedOnce w) (hwrites : StatementWrites services w call w')
    (hkeep : KeepsTerminal w.store w'.store) : AppliedOnce w' := by
  cases hwrites with
  | execute id effectAt now =>
    rcases executeProposal_cases services w id effectAt now with
      heq | ⟨⟨row, hrow, hpassed⟩, ⟨record, hrecord, hid⟩, -⟩ | ⟨_, _, hexec⟩
    · rw [heq]
      exact h
    · -- An approval record belongs to a proposal that is no longer passed.
      obtain ⟨p, hp, hterminal⟩ := h.recorded record hrecord
      rw [hid] at hp
      obtain rfl := Option.some.inj (hrow.symm.trans hp)
      rw [hpassed] at hterminal
      rcases hterminal with h | h | h <;> cases h
    · exact h.execute hexec
  | _ => exact h.keep hkeep (fun _ => rfl) rfl

section Machine

variable {Caller : Type} [DecidableEq Caller] {services : Services Outside}

theorem turn_writes {m m' : Machine Outside Caller} {e : Turn Caller}
    (h : Turns services m e m') (htime : ClosesInTime m e) :
    KeepsTerminal m.world.store m'.world.store ∧ (AppliedOnce m.world → AppliedOnce m'.world) := by
  cases e with
  | start c call =>
    obtain ⟨-, heq⟩ := Option.ite_none_right_eq_some.mp h
    obtain rfl := Option.some.inj heq
    exact ⟨.refl _, id⟩
  | abort c =>
    obtain rfl := Option.some.inj h
    exact ⟨.refl _, id⟩
  | statement c effectAt now =>
    simp only [Turns, turn] at h
    split at h
    · cases h
    · rename_i call rest hcalls
      obtain rfl := Option.some.inj h
      have hwrites := statement_writes services m.world effectAt now call
      have hkeep : KeepsTerminal m.world.store
          (statement services m.world effectAt now call).1.store := by
        apply statement_keepsTerminal hwrites
        rintro id outcome row rfl
        exact htime id outcome rest row hcalls
      exact ⟨hkeep, fun h => statement_appliedOnce h hwrites hkeep⟩

theorem closesInTime_of_keepsTerminal {m m' : Machine Outside Caller} {e : Turn Caller}
    (h : Turns services m e m') (hkeep : KeepsTerminal m.world.store m'.world.store) :
    ClosesInTime m e := by
  cases e with
  | statement c effectAt now =>
    intro id outcome rest row hcalls hrow hterminal
    simp only [Turns, turn, hcalls] at h
    obtain rfl := Option.some.inj h
    exact keepsTerminal_setStatus_iff.mp hkeep row hrow hterminal
  | _ => trivial

theorem run_unique {m m₁ m₂ : Machine Outside Caller} {es : List (Turn Caller)}
    (h₁ : Run (Turns services) m es m₁) (h₂ : Run (Turns services) m es m₂) : m₁ = m₂ := by
  apply h₁.unique _ h₂
  intro s l t t' ht ht'
  exact Option.some.inj (ht.symm.trans ht')

theorem run_keepsTerminal {m m' : Machine Outside Caller} {es : List (Turn Caller)}
    (h : Run (fun m e m' => Turns services m e m' ∧ ClosesInTime m e) m es m') :
    KeepsTerminal m.world.store m'.world.store := by
  induction h with
  | refl => exact .refl _
  | tail _ hstep ih => exact ih.trans (turn_writes hstep.1 hstep.2).1

theorem appliedOnce_initial (committee : UniqueTable Member Member.Clash)
    (runtimeConfig : Option (List (String × String × Instant))) (outside : Outside) :
    AppliedOnce (initial committee runtimeConfig outside) := by
  have hnone (id : ℕ) : (initial committee runtimeConfig outside).applied id = 0 := by
    simp [initial, World.applied]
  exact ⟨fun id => by rw [hnone]; exact Nat.zero_le 1, fun id h => absurd (hnone id) h,
    fun _ hrecord => absurd hrecord List.not_mem_nil⟩

/-- In a run from an empty database the executed, rejected and failed statuses are terminal, and
no effect is applied twice, exactly when no close writes its tally over a terminal status. -/
theorem terminal_and_applied_once_iff {committee : UniqueTable Member Member.Clash}
    {runtimeConfig : Option (List (String × String × Instant))} {outside : Outside}
    {es : List (Turn Caller)} {m : Machine Outside Caller}
    (h : Run (Turns services) (.start (initial committee runtimeConfig outside)) es m) :
    (∀ before between after u v, es = before ++ between ++ after →
      Run (Turns services) (.start (initial committee runtimeConfig outside)) before u →
      Run (Turns services) u between v →
        KeepsTerminal u.world.store v.world.store ∧ ∀ id, v.world.applied id ≤ 1) ↔
    ∀ before e after u, es = before ++ e :: after →
      Run (Turns services) (.start (initial committee runtimeConfig outside)) before u →
      ClosesInTime u e := by
  constructor
  · rintro hpromise before e after u rfl hu
    obtain ⟨u', hu', hrest⟩ := run_append_iff.mp h
    obtain ⟨v, hstep, -⟩ := run_cons_iff.mp hrest
    obtain rfl : u' = u := run_unique hu' hu
    apply closesInTime_of_keepsTerminal hstep
    exact (hpromise before [e] after u' v (by simp) hu (.single hstep)).1
  · rintro htime before between after u v rfl hu hv
    have hall : Run (Turns services) (.start (initial committee runtimeConfig outside))
        (before ++ between) v := hu.append hv
    have hguarded := hall.restrict (G := ClosesInTime) fun b e a w hes hw =>
      htime b e (a ++ after) w (by rw [hes]; simp) hw
    obtain ⟨u', hu', hv'⟩ := run_append_iff.mp hguarded
    obtain rfl : u' = u := run_unique (hu'.mono fun _ _ _ hstep => hstep.1) hu
    refine ⟨run_keepsTerminal hv', ?_⟩
    have hinvariant := hguarded.invariant (I := fun m => AppliedOnce m.world)
      (fun _ _ _ hold hstep => (turn_writes hstep.1 hstep.2).2 hold)
      (appliedOnce_initial committee runtimeConfig outside)
    exact hinvariant.once

end Machine

def callOf (c : ℕ) (call : Call) (statements : ℕ) (now : Instant) : List (Turn ℕ) :=
  .start c call :: List.replicate statements (.statement c now now)

/-- Two callers close an approved proposal. The second closes it and executes it before the first
writes its tally, after which it can be executed again. -/
def staleClose : List (Turn ℕ) :=
  callOf 0 (.submitProposal "ana" "config_change" raiseThreshold) 2 10 ++
  callOf 0 (.castVote 1 "ana" "for") 4 20 ++
  callOf 0 (.castVote 1 "ben" "for") 4 30 ++
  callOf 0 (.recordSignoff 1 "ben" "risk_owner" [("impact_analysis", .text "report")]) 3 40 ++
  callOf 0 (.recordSignoff 1 "eva" "compliance_officer" []) 3 50 ++
  callOf 1 (.closeProposal 1) 4 60 ++
  callOf 2 (.closeProposal 1) 6 70 ++
  callOf 2 (.executeProposal 1) 1 80 ++
  [.statement 1 90 90] ++
  callOf 2 (.executeProposal 1) 1 100

def approvingCommittee : Machine Unit ℕ := .start (initial threeMembers (some []) ())

theorem staleClose_applies_twice :
    ∃ m, Run (Turns quietServices) approvingCommittee staleClose m ∧ m.world.applied 1 = 2 := by
  have hrun : (staleClose.foldlM (fun m e => if True then turn quietServices m e else none)
      approvingCommittee).any (fun m => decide (m.world.applied 1 = 2)) = true := by decide +kernel
  obtain ⟨m, hm, htwice⟩ := (Option.any_eq_true _ _).mp hrun
  exact ⟨m, (run_iff_foldlM.mpr hm).mono fun _ _ _ hstep => hstep.1, of_decide_eq_true htwice⟩

theorem stale_close_applies_effect_twice :
    ¬ ∀ (es : List (Turn ℕ)) (m : Machine Unit ℕ),
      Run (Turns quietServices) approvingCommittee es m →
        (∀ id, m.world.applied id ≤ 1) ∧ ∀ es' m', Run (Turns quietServices) m es' m' →
          KeepsTerminal m.world.store m'.world.store := by
  intro h
  obtain ⟨m, hm, htwice⟩ := staleClose_applies_twice
  have hle := (h staleClose m hm).1 1
  omega

/-- The second caller executes the proposal after the first has written its tally, and tries
again. -/
def timelyClose : List (Turn ℕ) :=
  callOf 0 (.submitProposal "ana" "config_change" raiseThreshold) 2 10 ++
  callOf 0 (.castVote 1 "ana" "for") 4 20 ++
  callOf 0 (.castVote 1 "ben" "for") 4 30 ++
  callOf 0 (.recordSignoff 1 "ben" "risk_owner" [("impact_analysis", .text "report")]) 3 40 ++
  callOf 0 (.recordSignoff 1 "eva" "compliance_officer" []) 3 50 ++
  callOf 1 (.closeProposal 1) 4 60 ++
  callOf 2 (.closeProposal 1) 6 70 ++
  [.statement 1 75 75] ++
  callOf 2 (.executeProposal 1) 1 80 ++
  callOf 2 (.executeProposal 1) 1 100

theorem timelyClose_applies_once : ∃ m, m.world.applied 1 = 1 ∧ timelyClose.foldlM
    (fun m e => if ClosesInTime m e then turn quietServices m e else none) approvingCommittee =
      some m := by
  have hrun : (timelyClose.foldlM
      (fun m e => if ClosesInTime m e then turn quietServices m e else none)
      approvingCommittee).any (fun m => decide (m.world.applied 1 = 1)) = true := by decide +kernel
  obtain ⟨m, hm, honce⟩ := (Option.any_eq_true _ _).mp hrun
  exact ⟨m, of_decide_eq_true honce, hm⟩

/-- The condition holds in the run with the timely close, and fails in the one with the stale
close. -/
theorem terminal_and_applied_once_stale :
    (∃ m, Run (Turns quietServices) approvingCommittee timelyClose m ∧ m.world.applied 1 = 1 ∧
      ∀ before between after u v, timelyClose = before ++ between ++ after →
        Run (Turns quietServices) approvingCommittee before u →
        Run (Turns quietServices) u between v →
          KeepsTerminal u.world.store v.world.store ∧ ∀ id, v.world.applied id ≤ 1) ∧
    ¬ ∀ before e after u, staleClose = before ++ e :: after →
      Run (Turns quietServices) approvingCommittee before u → ClosesInTime u e := by
  constructor
  · obtain ⟨m, honce, hm⟩ := timelyClose_applies_once
    have hrun : Run (Turns quietServices) approvingCommittee timelyClose m :=
      (run_iff_foldlM.mpr hm).mono fun _ _ _ hstep => hstep.1
    refine ⟨m, hrun, honce, (terminal_and_applied_once_iff hrun).mpr ?_⟩
    intro before e after u hsplit hu
    rw [hsplit] at hm
    exact guard_of_foldlM hm hu
  · obtain ⟨m, hm, htwice⟩ := staleClose_applies_twice
    intro htime
    have hpromise := (terminal_and_applied_once_iff hm).mpr htime
    have hle := (hpromise [] staleClose [] approvingCommittee m (by simp) (.refl _) hm).2 1
    omega

section Alone

variable {services : Services Outside} {effectAt now : Instant}

/-- The statements of the calls, one after another with none in between. -/
inductive Finishes (services : Services Outside) (effectAt now : Instant) :
    World Outside → List Call → World Outside → Prop where
  | done (w : World Outside) : Finishes services effectAt now w [] w
  | step {w w' : World Outside} {call : Call} {rest : List Call} :
      Finishes services effectAt now (statement services w effectAt now call).1
        ((statement services w effectAt now call).2 ++ rest) w' →
      Finishes services effectAt now w (call :: rest) w'

theorem Finishes.run {Caller : Type} [DecidableEq Caller] {w w' : World Outside}
    {calls : List Call} (h : Finishes services effectAt now w calls w')
    {m : Machine Outside Caller} {c : Caller} (hw : m.world = w) (hcalls : m.calls c = calls) :
    ∃ n m', Run (Turns services) m (List.replicate n (.statement c effectAt now)) m' ∧
      m'.world = w' ∧ m'.calls c = [] := by
  induction h generalizing m with
  | done w => exact ⟨0, m, .refl m, hw, hcalls⟩
  | @step w w' call rest _ ih =>
    subst hw
    obtain ⟨n, m', hrun, hm'⟩ := ih (m := ⟨_, Function.update m.calls c _⟩) rfl
      (Function.update_self c _ _)
    refine ⟨n + 1, m', ?_, hm'⟩
    rw [List.replicate_succ, run_cons_iff]
    refine ⟨_, ?_, hrun⟩
    simp only [Turns, turn, hcalls]

theorem Finishes.append {u v w : World Outside} {calls rest : List Call}
    (h : Finishes services effectAt now u calls v) (h' : Finishes services effectAt now v rest w) :
    Finishes services effectAt now u (calls ++ rest) w := by
  induction h with
  | done => exact h'
  | step _ ih => exact .step (by simpa using ih h')

theorem finishes_submitProposal (w : World Outside) (proposer proposalType : String)
    (payload : Payload) : Finishes services effectAt now w
      [.submitProposal proposer proposalType payload]
      (w.commit (submitProposal w.store VOTING_PERIOD_HOURS proposer proposalType
          payload now)) := by
  apply Finishes.step
  unfold submitProposal
  cases htype : ProposalType.parse proposalType with
  | none =>
    simp only [statement, htype]
    exact .done w
  | some type =>
    cases hcheck : checkPayload type payload with
    | error e =>
      simp only [statement, htype, hcheck]
      exact .done w
    | ok _ =>
      cases hmember : w.store.isCommitteeMember proposer with
      | false =>
        simp only [statement, htype, hcheck, hmember]
        exact .done w
      | true =>
        simp only [statement, htype, hcheck, hmember]
        exact .step (.done _)

theorem finishes_castVote (w : World Outside) (id : ℕ) (voter decision : String) :
    Finishes services effectAt now w [.castVote id voter decision]
      (w.commit (castVote w.store id voter decision now)) := by
  apply Finishes.step
  unfold castVote
  cases hdecision : Decision.parse decision with
  | none =>
    simp only [statement, hdecision]
    exact .done w
  | some choice =>
    cases hmember : w.store.isCommitteeMember voter with
    | false =>
      simp only [statement, hdecision, hmember]
      exact .done w
    | true =>
      simp only [statement, hdecision, hmember, Bool.true_eq_false, if_false]
      apply Finishes.step
      cases hrow : w.store.proposals.find? id with
      | none =>
        simp only [statement, hrow]
        exact .done w
      | some row =>
        by_cases hstatus : row.status ≠ .active
        · simp only [statement, hrow, if_pos hstatus]
          exact .done w
        by_cases hexpired : row.votingEndsAt < now
        · simp only [statement, hrow, if_neg hstatus, if_pos hexpired]
          exact .done w
        simp only [statement, hrow, if_neg hstatus, if_neg hexpired]
        apply Finishes.step
        by_cases hvoted : ∃ v ∈ w.store.votes.rows, v.proposalId = id ∧ v.voter = voter
        · simp only [statement, if_pos hvoted]
          exact .done w
        simp only [statement, if_neg hvoted]
        apply Finishes.step
        cases hinsert : w.store.votes.insert? ⟨id, voter, choice, now⟩ with
        | none =>
          simp only [statement, hinsert]
          exact .done w
        | some votes =>
          simp only [statement, hinsert]
          exact .done _

theorem finishes_recordSignoff (w : World Outside) (id : ℕ) (signer role : String)
    (evidence : Payload) : Finishes services effectAt now w
      [.recordSignoff id signer role evidence]
      (w.commit (recordSignoff w.store id signer role evidence now)) := by
  apply Finishes.step
  unfold recordSignoff
  cases hrow : w.store.proposals.find? id with
  | none =>
    simp only [statement, hrow]
    exact .done w
  | some row =>
    by_cases hstatus : row.status ≠ .active ∧ row.status ≠ .passed
    · simp only [statement, hrow, if_pos hstatus]
      exact .done w
    by_cases hrole : role ∉ (APPROVAL_POLICIES row.proposalType).roles
    · simp only [statement, hrow, if_neg hstatus, if_pos hrole]
      exact .done w
    simp only [statement, hrow, if_neg hstatus, if_neg hrole]
    apply Finishes.step
    cases hmember : w.store.isCommitteeMember signer with
    | false =>
      simp only [statement, hmember]
      exact .done w
    | true =>
      by_cases hproposer : signer = row.proposer
      · simp only [statement, hmember, Bool.true_eq_false, if_false, if_pos hproposer]
        exact .done w
      simp only [statement, hmember, Bool.true_eq_false, if_false, if_neg hproposer]
      apply Finishes.step
      cases hinsert : w.store.signoffs.insert?
          ⟨id, role, signer, evidence.filter fun kv => kv.2.truthy, now⟩ with
      | none =>
        simp only [statement, hinsert]
        exact .done w
      | some signoffs =>
        simp only [statement, hinsert]
        exact .done _

theorem finishes_closeProposal (w : World Outside) (id : ℕ) :
    Finishes services effectAt now w [.closeProposal id]
      (w.commit (closeProposal w.store id)) := by
  apply Finishes.step
  cases hrow : w.store.proposals.find? id with
  | none =>
    simp only [statement, closeProposal, hrow]
    exact .done w
  | some row =>
    by_cases hactive : row.status = .active
    · rw [closeProposal_active hrow hactive]
      simp only [statement, hrow, hactive, ne_eq, not_true, if_false]
      -- The three reads of the tally, the update and the second read of the row.
      apply Finishes.step
      simp only [statement, hrow]
      exact .step (.step (.step (.step (.done _))))
    · simp only [statement, closeProposal, hrow, ne_eq, hactive, not_false_iff, if_true]
      exact .done w

theorem finishes_closeEach (w : World Outside) (ids : List ℕ) :
    Finishes services effectAt now w (ids.map .closeProposal)
      { w with store := (closeEach w.store ids).2 } := by
  induction ids generalizing w with
  | nil => exact .done w
  | cons id ids ih =>
    have hhead : Finishes services effectAt now w [.closeProposal id]
        (w.commit (closeProposal w.store id)) := finishes_closeProposal w id
    unfold closeEach
    cases hclose : closeProposal w.store id with
    | error e =>
      rw [hclose] at hhead
      exact hhead.append (ih w)
    | ok r =>
      rw [hclose] at hhead
      exact hhead.append (ih { w with store := r.2 })

theorem finishes_closeExpired (w : World Outside) (at' : Instant) :
    Finishes services effectAt now w [.closeExpired at']
      { w with store := (closeExpired w.store at').2 } := by
  apply Finishes.step
  rw [List.append_nil]
  exact finishes_closeEach w _

end Alone

end Governance
