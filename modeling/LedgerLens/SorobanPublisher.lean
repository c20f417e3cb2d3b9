import LedgerLens.CircuitBreaker
import LedgerLens.SqlTables
import Mathlib.Data.List.Infix

/-!
# The Soroban publisher

`detection/soroban_publisher.py`: the circuit of a publisher, its dead letters, the retries of one
submission, and batches of scores. Whatever is outside (the lease, the network, the database) is a
record of what each call meets.
-/
namespace SorobanPublisher

open CircuitBreaker (CircuitState)
open SqlTables

structure RiskScore where
  wallet : String
  assetPair : String
  score : ℤ
  timestamp : ℤ
  scoreVersion : String
  deriving DecidableEq, Repr

structure Config where
  circuitBreakerThreshold : ℕ
  circuitResetSeconds : ℚ
  dlqMaxRows : ℕ
  zkProofSystem : String

structure Circuit where
  state : CircuitState
  consecutiveFailures : ℕ
  lastError : Option String
  openedAt : Option ℚ
  deriving DecidableEq

def Circuit.initial : Circuit := ⟨.closed, 0, none, none⟩

/-- Whether the circuit stays open at a time of the monotonic clock. -/
def Circuit.Refuses (cfg : Config) (c : Circuit) (now : ℚ) : Prop :=
  c.state = .opened ∧ ∀ openedAt ∈ c.openedAt, now - openedAt < cfg.circuitResetSeconds

instance (cfg : Config) (c : Circuit) (now : ℚ) : Decidable (c.Refuses cfg now) :=
  inferInstanceAs (Decidable (_ ∧ _))

def Circuit.check (cfg : Config) (c : Circuit) (now : ℚ) : Except String Circuit :=
  if c.Refuses cfg now then
    throw s!"Circuit breaker open: {c.consecutiveFailures} consecutive failures"
  else if c.state = .opened then pure { c with state := .halfOpen }
  else pure c

def Circuit.recordFailure (cfg : Config) (c : Circuit) (error : String) (now : ℚ) : Circuit :=
  let c := { c with
    consecutiveFailures := c.consecutiveFailures + 1
    lastError := if error = "" then c.lastError else some error }
  if c.state = .halfOpen ∨ cfg.circuitBreakerThreshold ≤ c.consecutiveFailures then
    { c with state := .opened, openedAt := some now }
  else c

def Circuit.recordSuccess (c : Circuit) : Circuit where
  state := if c.state = .halfOpen then .closed else c.state
  consecutiveFailures := 0
  lastError := none
  openedAt := none

structure Submission where
  id : ℕ
  wallet : String
  assetPair : String
  score : ℤ
  txHash : Option String
  status : String
  errorMessage : Option String
  proofSystem : String
  submittedAt : ℤ
  deriving DecidableEq, Repr

inductive DeadLetterStatus where
  | pending
  | replayed
  | failed
  deriving DecidableEq, Repr

structure DeadLetter where
  id : ℕ
  wallet : String
  assetPair : String
  score : ℤ
  ledgerTimestamp : ℤ
  errorMessage : Option String
  status : DeadLetterStatus
  createdAt : ℤ
  replayedAt : Option ℤ
  replayTxHash : Option String
  deriving DecidableEq, Repr

structure Db where
  submissions : IdTable Submission Submission.id
  deadLetters : IdTable DeadLetter DeadLetter.id

/-- A row of `on_chain_submissions` before it has its id. -/
def submission (cfg : Config) (s : RiskScore) (status : String)
    (txHash errorMessage : Option String) (now : ℤ) (id : ℕ) : Submission where
  id := id
  wallet := s.wallet
  assetPair := s.assetPair
  score := s.score
  txHash := txHash
  status := status
  errorMessage := errorMessage
  proofSystem := cfg.zkProofSystem
  submittedAt := now

theorem submission_id (cfg : Config) (s : RiskScore) (status : String)
    (txHash errorMessage : Option String) (now : ℤ) (id : ℕ) :
    (submission cfg s status txHash errorMessage now id).id = id := rfl

def deadLetter (s : RiskScore) (error : String) (now : ℤ) (id : ℕ) : DeadLetter where
  id := id
  wallet := s.wallet
  assetPair := s.assetPair
  score := s.score
  ledgerTimestamp := s.timestamp
  errorMessage := some error
  status := .pending
  createdAt := now
  replayedAt := none
  replayTxHash := none

theorem deadLetter_id (s : RiskScore) (error : String) (now : ℤ) (id : ℕ) :
    (deadLetter s error now id).id = id := rfl

/-- Where an exception ends the dead letter write, which swallows it. -/
inductive DeadLetterFault where
  | none
  | insert
  | prune
  deriving DecidableEq, Repr

/-- Over the cap the oldest rows go. -/
def pruneDeadLetters (cfg : Config) (t : IdTable DeadLetter DeadLetter.id) :
    IdTable DeadLetter DeadLetter.id :=
  let count := t.rows.length
  if cfg.dlqMaxRows < count then
    let oldest := (t.rows.mergeSort fun a b => decide (a.createdAt ≤ b.createdAt)).take
      (count - cfg.dlqMaxRows)
    t.delete fun d => d.id ∈ oldest.map DeadLetter.id
  else t

def writeDeadLetter (cfg : Config) (db : Db) (s : RiskScore) (error : String) (now : ℤ)
    (fault : DeadLetterFault) : Db :=
  let inserted := db.deadLetters.insert (deadLetter s error now) (deadLetter_id s error now)
  match fault with
  | .insert => db
  | .prune => { db with deadLetters := inserted }
  | .none => { db with deadLetters := pruneDeadLetters cfg inserted }

def Mentions (text pattern : String) : Prop :=
  pattern.toList <:+: text.toList.map Char.toLower

instance (text pattern : String) : Decidable (Mentions text pattern) :=
  inferInstanceAs (Decidable (_ <:+: _))

/-- Which call of `_submit_once` is under way. -/
inductive Attempt where
  | first
  | feeRetry
  | second
  deriving DecidableEq, Repr

def failureText (error : String) : String :=
  if error = "" then "Submission failed after retries" else error

/-- What `_execute_with_retries` does with the result of an attempt: another attempt, or its own
result. -/
def afterAttempt (attempt : Attempt) (result : Except String String) :
    Attempt ⊕ Except String String :=
  match result with
  | .ok txHash => .inr (.ok txHash)
  | .error error =>
    match attempt with
    | .first =>
      if Mentions error "auth" ∧ Mentions error "failed" then .inr (.error (failureText error))
      else if Mentions error "bad_seq" then .inl .second
      else if Mentions error "insufficient_fee" then .inl .feeRetry
      else if Mentions error "timeout" then .inl .second
      else .inr (.error (failureText error))
    | .feeRetry | .second => .inr (.error (failureText error))

/-- The result of `_execute_with_retries`, from what each attempt comes to. -/
def executeWithRetries (submitOnce : Attempt → Except String String) : Except String String :=
  match afterAttempt .first (submitOnce .first) with
  | .inr result => result
  | .inl attempt => (submitOnce attempt).mapError failureText

inductive SubmitError where
  | lease (message : String)
  | circuitOpen (message : String)
  | submission (message : String)
  | unexpected (message : String)
  deriving DecidableEq, Repr

def SubmitError.message : SubmitError → String
  | .lease message | .circuitOpen message | .submission message | .unexpected message => message

def leaseError : SubmitError := .lease "Region does not hold the Soroban submission lease."

/-- What one call of `submit_score` meets: the lease, the proof of its features, the times of the
monotonic clock, the results of its attempts, and the exceptions of its database writes. -/
structure Conditions where
  lease : Except String Bool
  proof : Except String Unit
  checkedAt : ℚ
  failedAt : ℚ
  submitOnce : Attempt → Except String String
  save : Except String Unit
  saveAgain : Except String Unit
  deadLetterFault : DeadLetterFault
  now : ℤ

structure Publisher where
  circuit : Circuit
  db : Db

def Db.save (cfg : Config) (db : Db) (s : RiskScore) (status : String)
    (txHash errorMessage : Option String) (now : ℤ) : Db :=
  let row := submission cfg s status txHash errorMessage now
  { db with submissions := db.submissions.insert row (submission_id cfg s status _ _ now) }

/-- The hash of the transaction, or `none` for a dry run; `features` says whether there are any to
prove a threshold from. -/
def submitScore (cfg : Config) (m : Conditions) (s : RiskScore) (dryRun features : Bool)
    (p : Publisher) : Except SubmitError (Option String) × Publisher :=
  match m.lease with
  | .error e => (.error (.unexpected e), p)
  | .ok false => (.error leaseError, p)
  | .ok true =>
    match p.circuit.check cfg m.checkedAt with
    | .error e =>
      match m.save with
      | .error e' => (.error (.unexpected e'), p)
      | .ok () =>
        let db := p.db.save cfg s "skipped" none (some "Circuit breaker open") m.now
        (.error (.circuitOpen e),
          { p with db := writeDeadLetter cfg db s e m.now m.deadLetterFault })
    | .ok circuit =>
      match features, m.proof with
      | true, .error e => (.error (.unexpected e), { p with circuit := circuit })
      | _, _ =>
        if dryRun = true then
          match m.save with
          | .error e => (.error (.unexpected e), { p with circuit := circuit })
          | .ok () => (.ok none, ⟨circuit, p.db.save cfg s "skipped" none none m.now⟩)
        else
          match executeWithRetries m.submitOnce with
          | .ok txHash =>
            match m.save, m.saveAgain with
            | .ok (), _ => (.ok (some txHash),
                ⟨circuit.recordSuccess, p.db.save cfg s "submitted" (some txHash) none m.now⟩)
            | .error e, .ok () => (.error (.unexpected e),
                ⟨circuit.recordSuccess, p.db.save cfg s "failed" none
                  (some "Unexpected submission error") m.now⟩)
            | .error _, .error e =>
              (.error (.unexpected e), { p with circuit := circuit.recordSuccess })
          | .error e =>
            let circuit := circuit.recordFailure cfg e m.failedAt
            match m.save with
            | .error e' => (.error (.unexpected e'), { p with circuit := circuit })
            | .ok () => (.error (.submission e),
                ⟨circuit, p.db.save cfg s "failed" none (some "Submission failed after retries")
                  m.now⟩)

abbrev Results := String → Option String

def RiskScore.key (s : RiskScore) : String := s.wallet ++ ":" ++ s.assetPair

structure Call where
  score : RiskScore
  outcome : Except SubmitError (Option String)
  before : Db
  after : Db

def Call.result (c : Call) : String :=
  match c.outcome with
  | .ok none => "skipped"
  | .ok (some txHash) => if txHash = "" then "skipped" else txHash
  | .error e => "ERROR: " ++ e.message

/-- The calls that the loop of a batch makes; it ends where the circuit refuses a score. -/
def submitAll (cfg : Config) (dryRun : Bool) :
    List (RiskScore × Conditions) → Publisher → List Call × Publisher
  | [], p => ([], p)
  | (s, m) :: rest, p =>
    let (outcome, p') := submitScore cfg m s dryRun false p
    let call : Call := ⟨s, outcome, p.db, p'.db⟩
    match outcome with
    | .error (.circuitOpen _) => ([call], p')
    | _ =>
      let (calls, p'') := submitAll cfg dryRun rest p'
      (call :: calls, p'')

def resultsOf (calls : List Call) : Results :=
  calls.foldl (fun results c => Function.update results c.score.key (some c.result)) fun _ => none

def submitBatch (cfg : Config) (lease : Except String Bool) (dryRun : Bool)
    (scores : List (RiskScore × Conditions)) (p : Publisher) :
    Except SubmitError Results × List Call × Publisher :=
  match lease with
  | .error e => (.error (.unexpected e), [], p)
  | .ok false => (.error leaseError, [], p)
  | .ok true =>
    let (calls, p') := submitAll cfg dryRun scores p
    (.ok (resultsOf calls), calls, p')

def Submission.Of (s : RiskScore) (r : Submission) : Prop :=
  r.wallet = s.wallet ∧ r.assetPair = s.assetPair ∧ r.score = s.score

def DeadLetter.Of (s : RiskScore) (d : DeadLetter) : Prop :=
  d.wallet = s.wallet ∧ d.assetPair = s.assetPair ∧ d.score = s.score ∧
    d.ledgerTimestamp = s.timestamp

/-- The call returned a hash, or a row that it wrote is there in the end. -/
def Call.Kept (final : Db) (c : Call) : Prop :=
  (∃ txHash, c.outcome = .ok (some txHash)) ∨
  (∃ r ∈ final.submissions.rows,
    r ∈ c.after.submissions.rows ∧ r ∉ c.before.submissions.rows ∧ r.Of c.score) ∨
  (∃ d ∈ final.deadLetters.rows,
    d ∈ c.after.deadLetters.rows ∧ d ∉ c.before.deadLetters.rows ∧ d.Of c.score)

def NoneDropped (scores : List RiskScore) (calls : List Call) (final : Db) : Prop :=
  calls.map Call.score = scores ∧ ∀ c ∈ calls, c.Kept final

section Results

variable (cfg : Config) (dryRun : Bool)

/-- The region holds the lease, and the database takes a record of the score. -/
def Conditions.Records (m : Conditions) (c : Circuit) : Prop :=
  m.lease = .ok true ∧ (m.save = .ok () ∨
    (m.saveAgain = .ok () ∧ ¬ c.Refuses cfg m.checkedAt ∧ dryRun = false ∧
      ∃ txHash, executeWithRetries m.submitOnce = .ok txHash))

def Circuit.after (m : Conditions) (c : Circuit) : Circuit :=
  match c.check cfg m.checkedAt with
  | .error _ => c
  | .ok c =>
    if dryRun = true then c
    else
      match executeWithRetries m.submitOnce with
      | .ok _ => c.recordSuccess
      | .error e => c.recordFailure cfg e m.failedAt

/-- Every score can be recorded, and the circuit refuses none but the last. -/
def Spared : List Conditions → Circuit → Prop
  | [], _ => True
  | m :: rest, c => m.Records cfg dryRun c ∧ (c.Refuses cfg m.checkedAt → rest = []) ∧
      Spared rest (c.after cfg dryRun m)

variable {cfg dryRun}

theorem check_of_refuses {c : Circuit} {now : ℚ} (h : c.Refuses cfg now) :
    ∃ e, c.check cfg now = .error e := ⟨_, if_pos h⟩

theorem check_of_not_refuses {c : Circuit} {now : ℚ} (h : ¬ c.Refuses cfg now) :
    ∃ c', c.check cfg now = .ok c' := by
  rw [Circuit.check, if_neg h]
  split_ifs
  · exact ⟨_, rfl⟩
  · exact ⟨_, rfl⟩

theorem save_rows (db : Db) (s : RiskScore) (status : String) (txHash errorMessage : Option String)
    (now : ℤ) : ∃ r, (db.save cfg s status txHash errorMessage now).submissions.rows =
      db.submissions.rows ++ [r] ∧ r ∉ db.submissions.rows ∧ r.Of s := by
  refine ⟨_, rfl, fun hmem => ?_, rfl, rfl, rfl⟩
  have := db.submissions.bounded _ hmem
  exact absurd this (Nat.not_succ_le_self _)

theorem writeDeadLetter_submissions (db : Db) (s : RiskScore) (error : String) (now : ℤ)
    (fault : DeadLetterFault) :
    (writeDeadLetter cfg db s error now fault).submissions = db.submissions := by
  cases fault <;> rfl

structure Recorded (cfg : Config) (dryRun : Bool) (m : Conditions) (s : RiskScore)
    (p : Publisher) (outcome : Except SubmitError (Option String)) (p' : Publisher) : Prop where
  saved : ∃ r, p'.db.submissions.rows = p.db.submissions.rows ++ [r] ∧
    r ∉ p.db.submissions.rows ∧ r.Of s
  circuit : p'.circuit = p.circuit.after cfg dryRun m
  refused : (∃ e, outcome = .error (.circuitOpen e)) ↔ p.circuit.Refuses cfg m.checkedAt

theorem submitScore_recorded {m : Conditions} {p : Publisher} (s : RiskScore)
    (h : m.Records cfg dryRun p.circuit) :
    Recorded cfg dryRun m s p (submitScore cfg m s dryRun false p).1
      (submitScore cfg m s dryRun false p).2 := by
  obtain ⟨hlease, hsave⟩ := h
  by_cases hrefuses : p.circuit.Refuses cfg m.checkedAt
  · obtain ⟨e, hcheck⟩ := check_of_refuses hrefuses
    have hsave : m.save = .ok () := hsave.resolve_right fun hagain => hagain.2.1 hrefuses
    simp only [submitScore, hlease, hcheck, hsave]
    refine ⟨?_, ?_, iff_of_true ⟨e, rfl⟩ hrefuses⟩
    · rw [writeDeadLetter_submissions]
      exact save_rows ..
    · rw [Circuit.after, hcheck]
  · obtain ⟨circuit, hcheck⟩ := check_of_not_refuses hrefuses
    simp only [submitScore, hlease, hcheck]
    by_cases hdry : dryRun = true
    · have hsave : m.save = .ok () := by
        refine hsave.resolve_right fun hagain => ?_
        rw [hdry] at hagain
        cases hagain.2.2.1
      simp only [if_pos hdry, hsave]
      refine ⟨save_rows .., ?_, iff_of_false nofun hrefuses⟩
      rw [Circuit.after, hcheck]
      exact (if_pos hdry).symm
    · simp only [if_neg hdry]
      cases hexecuted : executeWithRetries m.submitOnce with
      | ok txHash =>
        have hafter : p.circuit.after cfg dryRun m = circuit.recordSuccess := by
          simp only [Circuit.after, hcheck, if_neg hdry, hexecuted]
        cases hfirst : m.save with
        | ok =>
          exact ⟨save_rows .., hafter.symm, iff_of_false nofun hrefuses⟩
        | error e =>
          rcases hsave with hsave | ⟨hagain, -⟩
          · cases hfirst.symm.trans hsave
          · simp only [hagain]
            exact ⟨save_rows .., hafter.symm, iff_of_false nofun hrefuses⟩
      | error e =>
        have hafter : p.circuit.after cfg dryRun m = circuit.recordFailure cfg e m.failedAt := by
          simp only [Circuit.after, hcheck, if_neg hdry, hexecuted]
        have hsave : m.save = .ok () := by
          refine hsave.resolve_right fun hagain => ?_
          obtain ⟨-, -, -, txHash, hok⟩ := hagain
          cases hexecuted.symm.trans hok
        simp only [hsave]
        exact ⟨save_rows .., hafter.symm, iff_of_false nofun hrefuses⟩

/-- A call that does not record its score leaves the database as it is and returns no hash. -/
theorem submitScore_unrecorded {m : Conditions} {p : Publisher} (s : RiskScore)
    (h : ¬ m.Records cfg dryRun p.circuit) :
    (submitScore cfg m s dryRun false p).2.db = p.db ∧
      ∀ txHash, (submitScore cfg m s dryRun false p).1 ≠ .ok (some txHash) := by
  cases hlease : m.lease with
  | error e =>
    simp only [submitScore, hlease]
    exact ⟨trivial, nofun⟩
  | ok held =>
    cases held with
    | false =>
      simp only [submitScore, hlease]
      exact ⟨trivial, nofun⟩
    | true =>
      cases hsave : m.save with
      | ok => exact absurd ⟨hlease, .inl hsave⟩ h
      | error e =>
        by_cases hrefuses : p.circuit.Refuses cfg m.checkedAt
        · obtain ⟨e, hcheck⟩ := check_of_refuses hrefuses
          simp only [submitScore, hlease, hcheck, hsave]
          exact ⟨trivial, nofun⟩
        · obtain ⟨circuit, hcheck⟩ := check_of_not_refuses hrefuses
          simp only [submitScore, hlease, hcheck]
          by_cases hdry : dryRun = true
          · simp only [if_pos hdry, hsave]
            exact ⟨trivial, nofun⟩
          · simp only [if_neg hdry]
            cases hexecuted : executeWithRetries m.submitOnce with
            | ok txHash =>
              cases hagain : m.saveAgain with
              | ok =>
                have hlive : dryRun = false := by simpa using hdry
                exact absurd ⟨hlease, .inr ⟨hagain, hrefuses, hlive, txHash, hexecuted⟩⟩ h
              | error e =>
                simp only [hsave]
                exact ⟨trivial, nofun⟩
            | error e =>
              simp only [hsave]
              exact ⟨trivial, nofun⟩

theorem saves_kept (cfg : Config) (dryRun : Bool) (m : Conditions) (s : RiskScore)
    (p : Publisher) :
    p.db.submissions.rows ⊆ (submitScore cfg m s dryRun false p).2.db.submissions.rows := by
  by_cases h : m.Records cfg dryRun p.circuit
  · obtain ⟨r, hrows, -⟩ := (submitScore_recorded s h).saved
    rw [hrows]
    exact List.subset_append_left _ _
  · rw [(submitScore_unrecorded s h).1]
    exact List.Subset.refl _

def callOf (cfg : Config) (dryRun : Bool) (s : RiskScore) (m : Conditions) (p : Publisher) : Call :=
  let (outcome, p') := submitScore cfg m s dryRun false p
  ⟨s, outcome, p.db, p'.db⟩

theorem submitAll_stopped {m : Conditions} {s : RiskScore} {p : Publisher}
    (rest : List (RiskScore × Conditions))
    (h : ∃ e, (submitScore cfg m s dryRun false p).1 = .error (.circuitOpen e)) :
    submitAll cfg dryRun ((s, m) :: rest) p =
      ([callOf cfg dryRun s m p], (submitScore cfg m s dryRun false p).2) := by
  obtain ⟨e, he⟩ := h
  simp only [submitAll, callOf, he]

theorem submitAll_continued {m : Conditions} {s : RiskScore} {p : Publisher}
    (rest : List (RiskScore × Conditions))
    (h : ¬ ∃ e, (submitScore cfg m s dryRun false p).1 = .error (.circuitOpen e)) :
    submitAll cfg dryRun ((s, m) :: rest) p =
      (callOf cfg dryRun s m p ::
        (submitAll cfg dryRun rest (submitScore cfg m s dryRun false p).2).1,
        (submitAll cfg dryRun rest (submitScore cfg m s dryRun false p).2).2) := by
  simp only [submitAll, callOf]
  split
  · rename_i e he
    exact absurd ⟨e, he⟩ h
  · rfl

theorem submitAll_keeps (scores : List (RiskScore × Conditions)) (p : Publisher) :
    p.db.submissions.rows ⊆ (submitAll cfg dryRun scores p).2.db.submissions.rows := by
  induction scores generalizing p with
  | nil => exact List.Subset.refl _
  | cons head rest ih =>
    obtain ⟨s, m⟩ := head
    have hfirst := saves_kept cfg dryRun m s p
    by_cases h : ∃ e, (submitScore cfg m s dryRun false p).1 = .error (.circuitOpen e)
    · rw [submitAll_stopped rest h]
      exact hfirst
    · rw [submitAll_continued rest h]
      exact List.Subset.trans hfirst (ih _)

theorem kept_iff {m : Conditions} {s : RiskScore} {p : Publisher} {final : Db}
    (hfinal : (submitScore cfg m s dryRun false p).2.db.submissions.rows ⊆
      final.submissions.rows) :
    (callOf cfg dryRun s m p).Kept final ↔ m.Records cfg dryRun p.circuit := by
  by_cases h : m.Records cfg dryRun p.circuit
  · obtain ⟨r, hrows, hnew, hof⟩ := (submitScore_recorded s h).saved
    have hmem : r ∈ (submitScore cfg m s dryRun false p).2.db.submissions.rows := by
      rw [hrows]
      exact List.mem_append_right _ (List.mem_singleton_self r)
    exact iff_of_true (.inr (.inl ⟨r, hfinal hmem, hmem, hnew, hof⟩)) h
  · obtain ⟨hdb, hhash⟩ := submitScore_unrecorded s h
    refine iff_of_false ?_ h
    rintro (⟨txHash, hok⟩ | ⟨r, -, hafter, hbefore, -⟩ | ⟨d, -, hafter, hbefore, -⟩)
    · exact hhash txHash hok
    · change r ∈ (submitScore cfg m s dryRun false p).2.db.submissions.rows at hafter
      rw [hdb] at hafter
      exact hbefore hafter
    · change d ∈ (submitScore cfg m s dryRun false p).2.db.deadLetters.rows at hafter
      rw [hdb] at hafter
      exact hbefore hafter

theorem first_call (cfg : Config) (dryRun : Bool) (m : Conditions) (s : RiskScore)
    (rest : List (RiskScore × Conditions)) (p : Publisher) :
    callOf cfg dryRun s m p ∈ (submitAll cfg dryRun ((s, m) :: rest) p).1 ∧
      ((callOf cfg dryRun s m p).Kept (submitAll cfg dryRun ((s, m) :: rest) p).2.db ↔
        m.Records cfg dryRun p.circuit) := by
  by_cases h : ∃ e, (submitScore cfg m s dryRun false p).1 = .error (.circuitOpen e)
  · rw [submitAll_stopped rest h]
    exact ⟨List.mem_singleton_self _, kept_iff (List.Subset.refl _)⟩
  · rw [submitAll_continued rest h]
    exact ⟨List.mem_cons_self, kept_iff (submitAll_keeps rest _)⟩

theorem submitAll_none_dropped (scores : List (RiskScore × Conditions)) (p : Publisher) :
    NoneDropped (scores.map Prod.fst) (submitAll cfg dryRun scores p).1
      (submitAll cfg dryRun scores p).2.db ↔
      Spared cfg dryRun (scores.map Prod.snd) p.circuit := by
  induction scores generalizing p with
  | nil => exact iff_of_true ⟨rfl, nofun⟩ trivial
  | cons head rest ih =>
    obtain ⟨s, m⟩ := head
    obtain ⟨hcall, hfirst⟩ := first_call cfg dryRun m s rest p
    rw [List.map_cons, List.map_cons, Spared]
    by_cases hrecords : m.Records cfg dryRun p.circuit
    · have hkept := hfirst.mpr hrecords
      have hrecorded := submitScore_recorded s hrecords
      by_cases hstop : ∃ e, (submitScore cfg m s dryRun false p).1 = .error (.circuitOpen e)
      · have hrefuses := hrecorded.refused.mp hstop
        rw [submitAll_stopped rest hstop] at hkept ⊢
        constructor
        · rintro ⟨hscores, -⟩
          have hrest : rest = [] := List.map_eq_nil_iff.mp (List.cons.inj hscores).2.symm
          subst hrest
          exact ⟨hrecords, fun _ => rfl, trivial⟩
        · rintro ⟨-, hlast, -⟩
          have hrest : rest = [] := List.map_eq_nil_iff.mp (hlast hrefuses)
          subst hrest
          exact ⟨rfl, List.forall_mem_singleton.mpr hkept⟩
      · have hpasses (hrefuses : p.circuit.Refuses cfg m.checkedAt) : rest.map Prod.snd = [] :=
          absurd (hrecorded.refused.mpr hrefuses) hstop
        rw [submitAll_continued rest hstop] at hkept ⊢
        have hrest := ih (submitScore cfg m s dryRun false p).2
        rw [hrecorded.circuit] at hrest
        rw [← hrest, NoneDropped, NoneDropped, List.map_cons, List.forall_mem_cons]
        constructor
        · rintro ⟨hscores, -, hkeeps⟩
          exact ⟨hrecords, hpasses, (List.cons.inj hscores).2, hkeeps⟩
        · rintro ⟨-, -, hscores, hkeeps⟩
          exact ⟨congrArg (s :: ·) hscores, hkept, hkeeps⟩
    · refine iff_of_false ?_ fun hspared => hrecords hspared.1
      rintro ⟨-, hkeeps⟩
      exact hrecords (hfirst.mp (hkeeps _ hcall))

/-- A batch drops no score exactly where the region holds the lease, the database takes a record
of each score, and the circuit refuses none but the last. -/
theorem none_dropped_iff (lease : Except String Bool) (scores : List (RiskScore × Conditions))
    (p : Publisher) :
    NoneDropped (scores.map Prod.fst) (submitBatch cfg lease dryRun scores p).2.1
      (submitBatch cfg lease dryRun scores p).2.2.db ↔
      (scores = [] ∨ lease = .ok true) ∧ Spared cfg dryRun (scores.map Prod.snd) p.circuit := by
  have hidle : NoneDropped (scores.map Prod.fst) [] p.db ↔ scores = [] := by
    constructor
    · rintro ⟨hscores, -⟩
      exact List.map_eq_nil_iff.mp hscores.symm
    · rintro rfl
      exact ⟨rfl, nofun⟩
  have hempty : scores = [] → Spared cfg dryRun (scores.map Prod.snd) p.circuit := by
    rintro rfl
    trivial
  cases hlease : lease with
  | error e =>
    simp only [submitBatch, hidle, reduceCtorEq, or_false]
    exact ⟨fun h => ⟨h, hempty h⟩, And.left⟩
  | ok held =>
    cases held with
    | false =>
      simp only [submitBatch, hidle, Except.ok.injEq, Bool.false_eq_true, or_false]
      exact ⟨fun h => ⟨h, hempty h⟩, And.left⟩
    | true =>
      simp only [submitBatch, or_true, true_and]
      exact submitAll_none_dropped scores p

end Results

section Examples

def defaults : Config := ⟨5, 300, 10000, "sigma"⟩

/-- The lease is held, the database takes every write, and the network refuses. -/
def unreachable : Conditions where
  lease := .ok true
  proof := .ok ()
  checkedAt := 10
  failedAt := 11
  submitOnce _ := .error "connection refused"
  save := .ok ()
  saveAgain := .ok ()
  deadLetterFault := .none
  now := 0

def scoreOf (wallet : String) : RiskScore := ⟨wallet, "XLM/USDC", 80, 0, "1"⟩

def failing : Publisher := ⟨⟨.closed, 4, some "timeout", none⟩, ⟨.empty, .empty⟩⟩

/-- The first score opens the circuit, the second is refused, and the third is never looked at. -/
theorem third_score_dropped : ¬ ∀ (cfg : Config) (dryRun : Bool)
    (scores : List (RiskScore × Conditions)) (p : Publisher),
    (∀ s ∈ scores, s.2.lease = .ok true ∧ s.2.save = .ok ()) →
    NoneDropped (scores.map Prod.fst) (submitBatch cfg (.ok true) dryRun scores p).2.1
      (submitBatch cfg (.ok true) dryRun scores p).2.2.db := by
  intro h
  let scores := [(scoreOf "G1", unreachable), (scoreOf "G2", unreachable),
    (scoreOf "G3", unreachable)]
  have hnone := (h defaults false scores failing (by simp [scores, unreachable])).1
  have hcalls : ((submitBatch defaults (.ok true) false scores failing).2.1.map
      fun c => c.score.wallet) = ["G1", "G2"] := by
    decide +kernel
  have hlength := congrArg List.length hnone
  have hshort := congrArg List.length hcalls
  rw [List.length_map] at hlength hshort
  rw [hshort] at hlength
  cases hlength

end Examples

end SorobanPublisher
