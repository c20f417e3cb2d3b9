import LedgerLens.FallibleRuns
import LedgerLens.JsonText
import LedgerLens.LabelledRuns
import LedgerLens.SqlTables
import Mathlib.Data.List.MinMax
import Mathlib.Data.Prod.Lex
import Mathlib.Data.Rat.Floor

/-!
# The chain submission queue

`detection/chain_submission_queue.py`: the table of owed submissions, claiming by lease, the
failure report, and the runs of any number of workers on one table. Times are microseconds of
UTC, in whose order the stored ISO texts are compared.
-/
namespace ChainSubmissionQueue

open FallibleRuns JsonText LabelledRuns SqlTables

abbrev Instant := ℤ

inductive Status where
  | pending
  | inFlight
  | submitted
  | abandoned
  | deadLetter
  deriving DecidableEq, Repr

def KIND_DISPUTE_OVERRIDE : String := "dispute_override"

def DEFAULT_PRIORITY : ℤ := 5
def DEFAULT_MAX_ATTEMPTS : ℤ := 10

def LEASE_SECONDS : ℚ := 300
def BACKOFF_BASE_SECONDS : ℚ := 5
def BACKOFF_CAP_SECONDS : ℚ := 3600
def BACKOFF_JITTER_FRACTION : ℚ := 1 / 4

/-- `timedelta(seconds=…)`, rounded half to even. -/
def timedelta (seconds : ℚ) : ℤ :=
  let micros := seconds * 1000000
  let low := ⌊micros⌋
  if micros - low < 1 / 2 ∨ (micros - low = 1 / 2 ∧ low % 2 = 0) then low else low + 1

/-- `uniform` is the draw of the random source between two bounds. -/
def backoffSeconds (attempts : ℤ) (uniform : ℚ → ℚ → ℚ) : ℚ :=
  let base :=
    if attempts < 1 then BACKOFF_BASE_SECONDS
    else min (BACKOFF_BASE_SECONDS * 2 ^ (attempts - 1).toNat) BACKOFF_CAP_SECONDS
  let jitter := base * BACKOFF_JITTER_FRACTION
  let delay := base + uniform (-jitter) jitter
  max 0 (min delay BACKOFF_CAP_SECONDS)

theorem backoffSeconds_bounds (attempts : ℤ) (uniform : ℚ → ℚ → ℚ) :
    0 ≤ backoffSeconds attempts uniform ∧
      backoffSeconds attempts uniform ≤ BACKOFF_CAP_SECONDS := by
  constructor
  · exact le_max_left _ _
  · apply max_le
    · decide +kernel
    · exact min_le_right _ _

structure Row where
  id : ℕ
  idempotencyKey : String
  kind : String
  overrideId : Option ℤ
  disputeId : Option String
  wallet : String
  assetPair : String
  payloadJson : String
  status : Status
  attempts : ℤ
  maxAttempts : ℤ
  priority : ℤ
  nextAttemptAt : Instant
  leasedUntil : Option Instant
  lastError : Option String
  createdAt : Instant
  updatedAt : Instant
  deriving DecidableEq, Repr

/-- `pending_chain_submissions`. The schema that `detection/storage.py` creates has no `priority`
column, which three statements name. -/
structure Table where
  hasPriority : Bool
  submissions : IdTable Row Row.id
  keys_nodup : (submissions.rows.map Row.idempotencyKey).Nodup
  deriving DecidableEq

abbrev Table.rows (t : Table) : List Row := t.submissions.rows

inductive DbError where
  | noSuchColumn
  deriving DecidableEq, Repr

/-- One `UPDATE`: every hit row is rewritten in place. -/
def Table.update (t : Table) (hit : Row → Prop) [DecidablePred hit] (set : Row → Row)
    (keeps : ∀ r, (set r).id = r.id ∧ (set r).idempotencyKey = r.idempotencyKey) : Table where
  hasPriority := t.hasPriority
  submissions := t.submissions.update hit set fun r => (keeps r).1
  keys_nodup := by
    rw [IdTable.rows_update, IdTable.map_update _ _ _ _ fun r => (keeps r).2]
    exact t.keys_nodup

theorem mem_update {t : Table} {hit : Row → Prop} [DecidablePred hit] {set : Row → Row} {keeps}
    {r : Row} : r ∈ (t.update hit set keeps).rows ↔
      ∃ r' ∈ t.rows, (if hit r' then set r' else r') = r :=
  List.mem_map

def overrideIdempotencyKey (disputeId : String) (overrideId : ℤ) : String :=
  KIND_DISPUTE_OVERRIDE ++ ":" ++ disputeId ++ ":" ++ String.ofList (intText overrideId)

structure Enqueue where
  disputeId : String
  overrideId : ℤ
  wallet : String
  assetPair : String
  maxAttempts : ℤ
  priority : ℤ
  deriving DecidableEq, Repr

def payload (disputeId : String) : Json :=
  .object (.ofList [("score", .number (.ofInt 0)), ("reason", .string "dispute_override"),
    ("dispute_id", .string disputeId)])

def newRow (id : ℕ) (e : Enqueue) (now : Instant) : Row where
  id := id
  idempotencyKey := overrideIdempotencyKey e.disputeId e.overrideId
  kind := KIND_DISPUTE_OVERRIDE
  overrideId := some e.overrideId
  disputeId := some e.disputeId
  wallet := e.wallet
  assetPair := e.assetPair
  payloadJson := String.ofList ((payload e.disputeId).render .default)
  status := .pending
  attempts := 0
  maxAttempts := e.maxAttempts
  priority := e.priority
  nextAttemptAt := now
  leasedUntil := none
  lastError := none
  createdAt := now
  updatedAt := now

theorem newRow_id (e : Enqueue) (now : Instant) (id : ℕ) : (newRow id e now).id = id := rfl

/-- `INSERT OR IGNORE`: a key that is present leaves the table as it is. -/
def enqueueOverrideSubmission (t : Table) (e : Enqueue) (now : Instant) :
    Except DbError (String × Table) :=
  let key := overrideIdempotencyKey e.disputeId e.overrideId
  if t.hasPriority = false then throw .noSuchColumn
  else if hnew : key ∈ t.rows.map Row.idempotencyKey then pure (key, t)
  else pure (key,
    { t with
      submissions := t.submissions.insert (fun id => newRow id e now) (newRow_id e now)
      keys_nodup := by
        rw [IdTable.rows_insert, List.map_append, List.nodup_append]
        refine ⟨t.keys_nodup, List.nodup_singleton _, ?_⟩
        intro k hk k' hk' heq
        obtain rfl : k' = key := List.mem_singleton.mp hk'
        exact hnew (heq ▸ hk) })

/-- Still owed and past its backoff: pending, or in flight under a lease that has expired. -/
def Due (now : Instant) (r : Row) : Prop :=
  r.nextAttemptAt ≤ now ∧
    (r.status = .pending ∨ (r.status = .inFlight ∧ ∀ u ∈ r.leasedUntil, u ≤ now))

instance (now : Instant) (r : Row) : Decidable (Due now r) := by
  unfold Due
  infer_instance

/-- `ORDER BY priority DESC, next_attempt_at ASC, id ASC` as a key. -/
def claimOrder (r : Row) : ℤ ×ₗ ℤ ×ₗ ℕ := toLex (-r.priority, toLex (r.nextAttemptAt, r.id))

/-- The columns a worker takes away with its claim, as the `SELECT` read them. -/
structure Job where
  id : ℕ
  idempotencyKey : String
  kind : String
  overrideId : Option ℤ
  disputeId : Option String
  wallet : String
  assetPair : String
  payloadJson : String
  status : Status
  attempts : ℤ
  maxAttempts : ℤ
  priority : ℤ
  deriving DecidableEq, Repr

def Row.job (r : Row) : Job :=
  ⟨r.id, r.idempotencyKey, r.kind, r.overrideId, r.disputeId, r.wallet, r.assetPair,
    r.payloadJson, r.status, r.attempts, r.maxAttempts, r.priority⟩

def leaseUntil (now : Instant) : Instant := now + timedelta LEASE_SECONDS

def Row.lease (now : Instant) (r : Row) : Row :=
  { r with status := .inFlight, leasedUntil := some (leaseUntil now), updatedAt := now }

/-- The order of integers that definitions can be evaluated with. -/
local instance claimPreorder : Preorder ℤ := Int.instLinearOrder.toPreorder

/-- One immediate transaction: the first due row is read and taken by a conditional update. -/
def claimNextDue (t : Table) (now : Instant) : Except DbError (Option Job × Table) :=
  if t.hasPriority = false then throw .noSuchColumn
  else
    match (t.rows.filter fun r => decide (Due now r)).argmin claimOrder with
    | none => pure (none, t)
    | some row =>
      let hit (r : Row) : Prop := r.id = row.id ∧ Due now r
      let t' := t.update hit (Row.lease now) fun _ => ⟨rfl, rfl⟩
      if t.rows.countP (fun r => decide (hit r)) ≠ 1 then pure (none, t')
      else pure (some row.job, t')

def Row.deadLetter (error : String) (now : Instant) (r : Row) : Row :=
  { r with status := .deadLetter, lastError := some error, leasedUntil := none, updatedAt := now }

def Row.retry (attempts : ℤ) (error : String) (nextAttempt now : Instant) (r : Row) : Row :=
  { r with
    status := .pending
    attempts := attempts
    lastError := some error
    leasedUntil := none
    nextAttemptAt := nextAttempt
    updatedAt := now }

def recordFailure (t : Table) (row : Job) (error : String) (now : Instant)
    (uniform : ℚ → ℚ → ℚ) : Status × Table :=
  let attempts := row.attempts + 1
  let hit (r : Row) : Prop := r.id = row.id
  if row.maxAttempts ≤ attempts then
    (.deadLetter, t.update hit (Row.deadLetter error now) fun _ => ⟨rfl, rfl⟩)
  else
    let nextAttempt := now + timedelta (backoffSeconds attempts uniform)
    (.pending, t.update hit (Row.retry attempts error nextAttempt now) fun _ => ⟨rfl, rfl⟩)

theorem claimNextDue_cases {t t' : Table} {now : Instant} {job : Option Job}
    (h : claimNextDue t now = .ok (job, t')) : (job = none ∧ t' = t) ∨
    ∃ row ∈ t.rows, Due now row ∧ job = some row.job ∧
      ∀ r, r ∈ t'.rows ↔ r = row.lease now ∨ (r ∈ t.rows ∧ r.id ≠ row.id) := by
  obtain ⟨-, h⟩ := guard_eq_ok.mp h
  split at h
  · cases h
    exact .inl ⟨rfl, rfl⟩
  · rename_i row hrow
    obtain ⟨hmem, hdue⟩ := List.mem_filter.mp (List.argmin_mem hrow)
    have hdue : Due now row := of_decide_eq_true hdue
    have hhit (r : Row) (hr : r ∈ t.rows) : (r.id = row.id ∧ Due now r) ↔ r = row := by
      constructor
      · exact fun hid => IdTable.eq_of_id_eq hr hmem hid.1
      · rintro rfl
        exact ⟨rfl, hdue⟩
    -- Ids are unique, so the conditional update hits the row that was read and no other.
    have hcount : t.rows.countP (fun r => decide (r.id = row.id ∧ Due now r)) = 1 := by
      rw [← List.count_eq_one_of_mem t.submissions.rows_nodup hmem, List.count_eq_countP]
      apply List.countP_congr
      intro r hr
      rw [decide_eq_true_iff, hhit r hr, beq_iff_eq]
    rw [if_neg (not_not.mpr hcount)] at h
    obtain ⟨rfl, rfl⟩ := Prod.mk.inj (Except.ok.inj h)
    refine .inr ⟨row, hmem, hdue, rfl, fun r => ?_⟩
    rw [mem_update]
    constructor
    · rintro ⟨r', hr', rfl⟩
      by_cases heq : r' = row
      · subst heq
        exact .inl (if_pos ⟨rfl, hdue⟩)
      · have hid : r'.id ≠ row.id := fun hid => heq (IdTable.eq_of_id_eq hr' hmem hid)
        rw [if_neg (by simp [hid])]
        exact .inr ⟨hr', hid⟩
    · rintro (rfl | ⟨hr, hid⟩)
      · exact ⟨row, hmem, if_pos ⟨rfl, hdue⟩⟩
      · exact ⟨r, hr, if_neg (by simp [hid])⟩

theorem recordFailure_cases (t : Table) (row : Job) (error : String) (now : Instant)
    (uniform : ℚ → ℚ → ℚ) : ∃ set : Row → Row,
    (∀ r, (set r).id = r.id ∧ (set r).leasedUntil = none ∧
      ((set r).status = .pending ∨ (set r).status = .deadLetter)) ∧
    (recordFailure t row error now uniform).2.rows =
      t.rows.map fun r => if r.id = row.id then set r else r := by
  simp only [recordFailure]
  split_ifs
  · refine ⟨Row.deadLetter error now, fun _ => ⟨rfl, rfl, .inr rfl⟩, ?_⟩
    rfl
  · let attempts := row.attempts + 1
    let nextAttempt := now + timedelta (backoffSeconds attempts uniform)
    refine ⟨Row.retry attempts error nextAttempt now, fun _ => ⟨rfl, rfl, .inl rfl⟩, ?_⟩
    rfl

theorem mem_recordFailure {t : Table} {row : Job} {error : String} {now : Instant}
    {uniform : ℚ → ℚ → ℚ} {r : Row} (hr : r ∈ t.rows) (hid : r.id ≠ row.id) :
    r ∈ (recordFailure t row error now uniform).2.rows := by
  obtain ⟨set, -, hrows⟩ := recordFailure_cases t row error now uniform
  rw [hrows, List.mem_map]
  exact ⟨r, hr, if_neg hid⟩

theorem recordFailure_relabels {t : Table} {row : Job} {error : String} {now : Instant}
    {uniform : ℚ → ℚ → ℚ} {r : Row} (hr : r ∈ (recordFailure t row error now uniform).2.rows)
    (hid : r.id = row.id) :
    r.leasedUntil = none ∧ (r.status = .pending ∨ r.status = .deadLetter) := by
  obtain ⟨set, hset, hrows⟩ := recordFailure_cases t row error now uniform
  rw [hrows, List.mem_map] at hr
  obtain ⟨r', -, rfl⟩ := hr
  by_cases heq : r'.id = row.id
  · rw [if_pos heq]
    exact (hset r').2
  · rw [if_neg heq] at hid
    exact absurd hid heq

theorem mem_enqueue {t t' : Table} {e : Enqueue} {now : Instant} {key : String}
    (h : enqueueOverrideSubmission t e now = .ok (key, t')) {r : Row} (hr : r ∈ t.rows) :
    r ∈ t'.rows := by
  obtain ⟨-, h⟩ := guard_eq_ok.mp h
  split_ifs at h
  · cases h
    exact hr
  · cases h
    exact List.mem_append_left _ hr

variable {Worker : Type}

/-- A lease as it was granted; its holder gives it up by reporting the attempt as failed. -/
structure Lease (Worker : Type) where
  worker : Worker
  row : ℕ
  expiry : Instant
  released : Bool
  deriving DecidableEq

/-- The table, the clock, the jobs in the workers' memory and, oldest first, every lease granted
so far. -/
structure World (Worker : Type) where
  table : Table
  clock : Instant
  jobs : List (Worker × Job)
  grants : List (Lease Worker)

/-- Each call ends `at'` a time of the run; the `now` it works with may be older, since a claim
reads its clock before it waits for the write lock. -/
inductive Event (Worker : Type) where
  | enqueue (e : Enqueue) (now at' : Instant)
  | claim (w : Worker) (now at' : Instant)
  | crash (w : Worker) (at' : Instant)
  | succeed (w : Worker) (row : Job) (at' : Instant)
  | recordFailure (w : Worker) (row : Job) (error : String) (uniform : ℚ → ℚ → ℚ)
      (now at' : Instant)

def start (t : Table) (clock : Instant) : World Worker := ⟨t, clock, [], []⟩

def World.enqueue (s : World Worker) (e : Enqueue) (now : Instant) : World Worker :=
  match enqueueOverrideSubmission s.table e now with
  | .error _ => s
  | .ok (_, t) => { s with table := t }

/-- The table after a claim, with the job the worker goes away with. A raised statement leaves
the table as it was. -/
def World.claim (s : World Worker) (w : Worker) (now : Instant) : World Worker :=
  match claimNextDue s.table now with
  | .error _ => s
  | .ok (none, t) => { s with table := t }
  | .ok (some row, t) =>
    { s with
      table := t
      jobs := s.jobs ++ [(w, row)]
      grants := s.grants ++ [⟨w, row.id, leaseUntil now, false⟩] }

def Lease.Live (clock : Instant) (l : Lease Worker) : Prop :=
  l.released = false ∧ clock < l.expiry

instance (clock : Instant) (l : Lease Worker) : Decidable (l.Live clock) :=
  inferInstanceAs (Decidable (_ ∧ _))

def lastHolder (grants : List (Lease Worker)) (row : ℕ) : Option Worker :=
  ((grants.filter fun l => decide (l.row = row)).getLast?).map Lease.worker

/-- No two workers hold unexpired leases on one row. -/
def SingleFlight (s : World Worker) : Prop :=
  ∀ l ∈ s.grants, ∀ l' ∈ s.grants, l.Live s.clock → l'.Live s.clock → l.row = l'.row →
    l.worker = l'.worker

def Late (s : World Worker) : Event Worker → Prop
  | .succeed w row _ => lastHolder s.grants row.id ≠ some w
  | .recordFailure w row _ _ _ _ => lastHolder s.grants row.id ≠ some w
  | _ => False

/-- A failure is reported only while no other worker has claimed the row since. -/
def ReportsInTime (s : World Worker) : Event Worker → Prop
  | .recordFailure w row _ _ _ _ => lastHolder s.grants row.id = some w
  | _ => True

/-- The row is in flight under exactly this lease. -/
def Lease.Held (t : Table) (l : Lease Worker) : Prop :=
  ∃ r ∈ t.rows, r.id = l.row ∧ r.status = .inFlight ∧ r.leasedUntil = some l.expiry

/-- What an unexpired lease guarantees: the table still shows it, and nobody else came after. -/
def Fenced (s : World Worker) : Prop :=
  ∀ l ∈ s.grants, l.Live s.clock → l.Held s.table ∧ lastHolder s.grants l.row = some l.worker

theorem Fenced.singleFlight {s : World Worker} (h : Fenced s) : SingleFlight s := by
  intro l hl l' hl' hlive hlive' hrow
  have hlast := (h l hl hlive).2
  rw [hrow, (h l' hl' hlive').2] at hlast
  exact (Option.some.inj hlast).symm

theorem Lease.Live.mono {clock clock' : Instant} {l : Lease Worker} (h : l.Live clock')
    (hle : clock ≤ clock') : l.Live clock :=
  ⟨h.1, lt_of_le_of_lt hle h.2⟩

theorem lastHolder_concat (grants : List (Lease Worker)) (l : Lease Worker) (row : ℕ) :
    lastHolder (grants ++ [l]) row =
      if l.row = row then some l.worker else lastHolder grants row := by
  unfold lastHolder
  by_cases hrow : l.row = row
  · simp [hrow]
  · simp [hrow]

theorem Fenced.start (t : Table) (clock : Instant) :
    Fenced (ChainSubmissionQueue.start t clock : World Worker) := by
  intro l hl
  cases hl

theorem Fenced.later {s : World Worker} (h : Fenced s) {clock : Instant} (hle : s.clock ≤ clock)
    (jobs : List (Worker × Job)) : Fenced { s with clock := clock, jobs := jobs } :=
  fun l hl hlive => h l hl (hlive.mono hle)

theorem Fenced.enqueue {s : World Worker} (h : Fenced s) (e : Enqueue) (now : Instant) :
    Fenced (s.enqueue e now) := by
  unfold World.enqueue
  split
  · exact h
  · rename_i key t htable
    intro l hl hlive
    obtain ⟨⟨r, hr, hheld⟩, hlast⟩ := h l hl hlive
    exact ⟨⟨r, mem_enqueue htable hr, hheld⟩, hlast⟩

theorem Fenced.claim {s : World Worker} (h : Fenced s) {w : Worker} {now clock : Instant}
    (hle : s.clock ≤ clock) (hnow : now ≤ clock) :
    Fenced { s.claim w now with clock := clock } := by
  unfold World.claim
  split
  · exact h.later hle _
  · rename_i t htable
    rcases claimNextDue_cases htable with ⟨-, rfl⟩ | ⟨row, -, -, hjob, -⟩
    · exact h.later hle _
    · cases hjob
  · rename_i job t htable
    rcases claimNextDue_cases htable with ⟨hjob, -⟩ | ⟨row, hrow, hdue, hjob, hmem⟩
    · cases hjob
    obtain rfl := Option.some.inj hjob
    intro l hl hlive
    rcases List.mem_append.mp hl with hl | hl
    · obtain ⟨⟨r, hr, hid, hstatus, hlease⟩, hlast⟩ := h l hl (hlive.mono hle)
      have hother : r.id ≠ row.id := by
        intro heq
        obtain rfl := IdTable.eq_of_id_eq hr hrow heq
        rcases hdue.2 with hpending | ⟨-, hexpired⟩
        · rw [hstatus] at hpending
          cases hpending
        · exact absurd hlive.2 (not_lt.mpr ((hexpired _ hlease).trans hnow))
      refine ⟨⟨r, (hmem r).mpr (.inr ⟨hr, hother⟩), hid, hstatus, hlease⟩, ?_⟩
      rw [lastHolder_concat, if_neg, hlast]
      exact fun heq => hother (hid.trans heq.symm)
    · obtain rfl := List.mem_singleton.mp hl
      refine ⟨⟨row.lease now, (hmem _).mpr (.inl rfl), rfl, rfl, rfl⟩, ?_⟩
      rw [lastHolder_concat, if_pos rfl]

section Runs

variable [DecidableEq Worker]

def Lease.release (w : Worker) (id : ℕ) (l : Lease Worker) : Lease Worker :=
  if l.worker = w ∧ l.row = id then { l with released := true } else l

/-- A crash loses the jobs in memory. A confirmed submission is written back to the override it
came from, in `score_overrides`; no statement of the queue marks its row as submitted. -/
def next (s : World Worker) : Event Worker → Option (World Worker)
  | .enqueue e now at' =>
    if s.clock ≤ at' ∧ now ≤ at' then some { s.enqueue e now with clock := at' } else none
  | .claim w now at' =>
    if s.clock ≤ at' ∧ now ≤ at' then some { s.claim w now with clock := at' } else none
  | .crash w at' =>
    if s.clock ≤ at' then
      some { s with clock := at', jobs := s.jobs.filter fun j => decide (j.1 ≠ w) }
    else none
  | .succeed w row at' =>
    if s.clock ≤ at' ∧ (w, row) ∈ s.jobs then
      some { s with clock := at', jobs := s.jobs.erase (w, row) }
    else none
  | .recordFailure w row error uniform now at' =>
    if s.clock ≤ at' ∧ now ≤ at' ∧ (w, row) ∈ s.jobs then
      some { s with
        table := (recordFailure s.table row error now uniform).2
        clock := at'
        grants := s.grants.map (Lease.release w row.id) }
    else none

def Step (s : World Worker) (e : Event Worker) (t : World Worker) : Prop := next s e = some t

def TimelyStep (s : World Worker) (e : Event Worker) (t : World Worker) : Prop :=
  Step s e t ∧ ReportsInTime s e

/-- The promise of the queue in a state of a run: single flight, and no row is changed by a late
report or completion. -/
def Promise (step : World Worker → Event Worker → World Worker → Prop) (s : World Worker) : Prop :=
  SingleFlight s ∧ ∀ e t, step s e t → Late s e → t.table.rows = s.table.rows

theorem release_row (w : Worker) (id : ℕ) (l : Lease Worker) :
    (l.release w id).row = l.row ∧ (l.release w id).worker = l.worker := by
  unfold Lease.release
  split_ifs
  · exact ⟨rfl, rfl⟩
  · exact ⟨rfl, rfl⟩

theorem lastHolder_release (grants : List (Lease Worker)) (w : Worker) (id row : ℕ) :
    lastHolder (grants.map (Lease.release w id)) row = lastHolder grants row := by
  unfold lastHolder
  rw [List.filter_map, List.getLast?_map, Option.map_map]
  have hfilter : (fun l => decide (l.row = row)) ∘ Lease.release w id =
      fun l : Lease Worker => decide (l.row = row) := by
    funext l
    rw [Function.comp_apply, (release_row w id l).1]
  have hworker : Lease.worker ∘ Lease.release w id = (Lease.worker : Lease Worker → Worker) := by
    funext l
    exact (release_row w id l).2
  rw [hfilter, hworker]

theorem Fenced.recordFailure {s : World Worker} (h : Fenced s) {w : Worker} {row : Job}
    (error : String) (uniform : ℚ → ℚ → ℚ) (now : Instant) {clock : Instant}
    (hle : s.clock ≤ clock) (hlast : lastHolder s.grants row.id = some w) :
    Fenced { s with
      table := (recordFailure s.table row error now uniform).2
      clock := clock
      grants := s.grants.map (Lease.release w row.id) } := by
  intro l hl hlive
  obtain ⟨l₀, hl₀, rfl⟩ := List.mem_map.mp hl
  have hkept : ¬ (l₀.worker = w ∧ l₀.row = row.id) := by
    intro hown
    have := hlive.1
    rw [Lease.release, if_pos hown] at this
    cases this
  have hsame : l₀.release w row.id = l₀ := if_neg hkept
  rw [hsame] at hlive ⊢
  obtain ⟨⟨r, hr, hid, hheld⟩, hlast₀⟩ := h l₀ hl₀ (hlive.mono hle)
  have hother : l₀.row ≠ row.id := by
    intro heq
    rw [heq, hlast] at hlast₀
    exact hkept ⟨(Option.some.inj hlast₀).symm, heq⟩
  refine ⟨⟨r, mem_recordFailure hr (hid ▸ hother), hid, hheld⟩, ?_⟩
  rw [lastHolder_release, hlast₀]

theorem step_fenced {s t : World Worker} {e : Event Worker} (h : Fenced s) (hstep : Step s e t)
    (htime : ReportsInTime s e) : Fenced t := by
  cases e with
  | enqueue e now at' =>
    obtain ⟨⟨hle, -⟩, heq⟩ := Option.ite_none_right_eq_some.mp hstep
    obtain rfl := Option.some.inj heq
    have hclock : (s.enqueue e now).clock = s.clock := by unfold World.enqueue; split <;> rfl
    exact (h.enqueue e now).later (hclock ▸ hle) _
  | claim w now at' =>
    obtain ⟨⟨hle, hnow⟩, heq⟩ := Option.ite_none_right_eq_some.mp hstep
    obtain rfl := Option.some.inj heq
    exact h.claim hle hnow
  | crash w at' =>
    obtain ⟨hle, heq⟩ := Option.ite_none_right_eq_some.mp hstep
    obtain rfl := Option.some.inj heq
    exact h.later hle _
  | succeed w row at' =>
    obtain ⟨⟨hle, -⟩, heq⟩ := Option.ite_none_right_eq_some.mp hstep
    obtain rfl := Option.some.inj heq
    exact h.later hle _
  | recordFailure w row error uniform now at' =>
    obtain ⟨⟨hle, -⟩, heq⟩ := Option.ite_none_right_eq_some.mp hstep
    obtain rfl := Option.some.inj heq
    exact h.recordFailure error uniform now hle htime

theorem succeed_rows {s t : World Worker} {w : Worker} {row : Job} {at' : Instant}
    (h : Step s (.succeed w row at') t) : t.table = s.table := by
  obtain ⟨-, heq⟩ := Option.ite_none_right_eq_some.mp h
  obtain rfl := Option.some.inj heq
  rfl

theorem late_report_breaks_promise {s t : World Worker} {w : Worker} {row : Job} {error : String}
    {uniform : ℚ → ℚ → ℚ} {now at' : Instant} {r : Row}
    (hstep : Step s (.recordFailure w row error uniform now at') t)
    (hlate : lastHolder s.grants row.id ≠ some w) (hr : r ∈ s.table.rows) (hid : r.id = row.id)
    (hflight : r.status = .inFlight) : ¬ Promise Step s := by
  intro h
  have hrows := h.2 _ t hstep hlate
  obtain ⟨-, heq⟩ := Option.ite_none_right_eq_some.mp hstep
  obtain rfl := Option.some.inj heq
  obtain ⟨-, hstatus⟩ := recordFailure_relabels (hrows ▸ hr) hid
  rw [hflight] at hstatus
  rcases hstatus with hstatus | hstatus <;> cases hstatus

/-- Whatever the workers do, the promise is kept while failures are reported in time. -/
theorem promise_of_timely_reports {table : Table} {clock : Instant} {es : List (Event Worker)}
    {s : World Worker} (h : Run TimelyStep (start table clock) es s) : Promise TimelyStep s := by
  constructor
  · apply Fenced.singleFlight
    apply h.invariant
    · exact fun _ _ _ hfenced hstep => step_fenced hfenced hstep.1 hstep.2
    · exact .start table clock
  · rintro e t ⟨hstep, htime⟩ hlate
    cases e with
    | succeed => rw [succeed_rows hstep]
    | recordFailure => exact absurd htime hlate
    | _ => cases hlate

end Runs

def oneOwed : Table where
  hasPriority := true
  submissions := {
    rows := [newRow 1 ⟨"dispute", 1, "GWALLET", "XLM/USDC", 10, 5⟩ 0]
    sequence := 1
    sorted := by decide
    bounded := by decide }
  keys_nodup := by decide

def owedJob (status : Status) (attempts : ℤ) : Job :=
  { (newRow 1 ⟨"dispute", 1, "GWALLET", "XLM/USDC", 10, 5⟩ 0).job with
    status := status, attempts := attempts }

/-- The first worker's lease runs out, a second worker claims the row, the first reports its
failure, and a third worker claims the row while the second still holds it. -/
def staleReport : List (Event ℕ) := [
  .claim 1 0 0,
  .claim 2 300000000 300000000,
  .recordFailure 1 (owedJob .pending 0) "timeout" (fun _ _ => 0) 301000000 301000000,
  .claim 3 310000000 310000000]

instance (s : World ℕ) : Decidable (SingleFlight s) := by
  unfold SingleFlight
  infer_instance

instance (s : World ℕ) (e : Event ℕ) : Decidable (ReportsInTime s e) := by
  cases e <;> unfold ReportsInTime <;> infer_instance

theorem stale_report_breaks_single_flight :
    ¬ ∀ (table : Table) (clock : Instant) (es : List (Event ℕ)) (s : World ℕ),
      Run Step (start table clock) es s → Promise Step s := by
  intro h
  have hrun : (staleReport.foldlM (fun s e => if True then next s e else none)
      (start oneOwed 0)).any (fun s => !decide (SingleFlight s)) = true := by decide +kernel
  obtain ⟨s, hs, hbroken⟩ := (Option.any_eq_true _ _).mp hrun
  have hpromise := h oneOwed 0 staleReport s
    ((run_iff_foldlM.mpr hs).mono fun _ _ _ hstep => hstep.1)
  exact absurd hpromise.1 (by simpa using hbroken)

/-- The same workers, with the second one reporting while it is the last to have claimed. -/
theorem promise_of_timely_reports_two_workers : ∃ s : World ℕ,
    Run TimelyStep (start oneOwed 0) [.claim 1 0 0, .crash 1 10, .claim 2 300000000 300000000,
      .recordFailure 2 (owedJob .inFlight 0) "timeout" (fun _ _ => 0) 301000000 301000000,
      .claim 3 306000000 306000000] s ∧ Promise TimelyStep s := by
  have hrun : ([.claim 1 0 0, .crash 1 10, .claim 2 300000000 300000000,
      .recordFailure 2 (owedJob .inFlight 0) "timeout" (fun _ _ => 0) 301000000 301000000,
      .claim 3 306000000 306000000].foldlM
        (fun s e => if ReportsInTime s e then next s e else none)
        (start oneOwed 0 : World ℕ)).isSome = true := by decide +kernel
  obtain ⟨s, hs⟩ := Option.isSome_iff_exists.mp hrun
  have h := run_iff_foldlM.mpr hs
  exact ⟨s, h, promise_of_timely_reports h⟩

end ChainSubmissionQueue
