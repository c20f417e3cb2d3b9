import LedgerLens.IsoTimestamps
import LedgerLens.JsonParsing
import LedgerLens.LabelledRuns
import LedgerLens.SqlTables

/-!
# The dead-letter queue of the ingestion

`ingestion/dlq.py`: records that could not be ingested, and any number of workers that replay them
statement by statement on one database, where a worker can stop at any point.
-/
namespace TradeDlq

open IsoTimestamps JsonText LabelledRuns SqlTables Workers

/-- What is pushed, and what a handler is called with. -/
inductive Record where
  | text (s : String)
  | value (v : Json)

def Record.dumps : Record → String
  | .text s => s
  | .value v => String.ofList (v.render .default)

/-- What is not JSON goes to the handler as it is. -/
def decode (raw : String) : Record :=
  match loads raw with
  | some v => .value v
  | none => .text raw

theorem decode_dumps (v : Json) : decode (Record.value v).dumps = .value v := by
  rw [decode, Record.dumps, loads_render ⟨rfl, rfl⟩]

inductive ErrorClass where
  | parseError
  | networkError
  | schemaError
  | storageError
  | versionError
  | unknown
  deriving DecidableEq

inductive Status where
  | pending
  | replayed
  | dead
  | quarantined
  deriving DecidableEq

def Status.text : Status → String
  | .pending => "pending"
  | .replayed => "replayed"
  | .dead => "dead"
  | .quarantined => "quarantined"

structure Entry where
  id : ℕ
  source : String
  errorClass : ErrorClass
  errorMessage : String
  rawRecord : String
  createdAt : DateTime
  retryCount : ℕ
  status : Status
  replayedAt : Option DateTime
  replayFailures : ℕ
  lastReplayError : Option String
  deriving DecidableEq

abbrev Queue := IdTable Entry Entry.id

def Entry.new (source : String) (errorClass : ErrorClass) (errorMessage : String) (raw : Record)
    (now : DateTime) (id : ℕ) : Entry :=
  ⟨id, source, errorClass, errorMessage, raw.dumps, now, 0, .pending, none, 0, none⟩

def Queue.push (t : Queue) (source : String) (errorClass : ErrorClass) (errorMessage : String)
    (raw : Record) (now : DateTime) : Queue :=
  t.insert (.new source errorClass errorMessage raw now) fun _ => rfl

def Queue.setEntry (t : Queue) (id : ℕ) (set : Entry → Entry) (keeps : ∀ e, (set e).id = e.id) :
    Queue :=
  t.update (fun e => e.id = id) set keeps

def Entry.markReplayed (now : DateTime) (e : Entry) : Entry :=
  { e with status := .replayed, replayedAt := some now, retryCount := e.retryCount + 1 }

def Entry.markDead (e : Entry) : Entry := { e with status := .dead }

def Entry.quarantine (errorMessage : String) (e : Entry) : Entry :=
  { e with status := .quarantined, lastReplayError := some errorMessage }

/-- The statement of `record_replay_failure`. -/
def Entry.recordFailure (maxReplayFailures : ℤ) (error : String) (e : Entry) : Entry :=
  { e with
    replayFailures := e.replayFailures + 1
    retryCount := e.retryCount + 1
    lastReplayError := some error
    status := if maxReplayFailures ≤ e.replayFailures + 1 then .quarantined else e.status }

inductive OutcomeStatus where
  | replayed
  | failed
  | quarantined
  | skipped
  deriving DecidableEq

structure ReplayOutcome where
  entryId : ℕ
  status : OutcomeStatus
  error : Option String
  deriving DecidableEq

/-- What a worker has to do next in the call that it runs. -/
inductive Work where
  | idle
  | get (id : ℕ)
  | handle (entry : Entry)
  | succeed (id : ℕ)
  | fail (id : ℕ) (error : String)
  | check (id : ℕ) (error : String)
  | quarantinePush (source : String) (errorClass : ErrorClass) (errorMessage : String)
      (raw : Record)
  | quarantineSet (id : ℕ) (errorMessage : String)
  | quarantineGet (id : ℕ) (errorMessage : String)

/-- `handled` are the calls of handlers, and `aborts` the workers that stopped in a call. -/
structure State (W : Type) where
  queue : Queue
  hand : W → Work
  handled : List (ℕ × Record)
  alerts : List (Entry × String)
  outcomes : List ReplayOutcome
  aborts : ℕ

inductive Turn (W : Type) where
  | push (source : String) (errorClass : ErrorClass) (errorMessage : String) (raw : Record)
      (now : DateTime)
  | markDead (id : ℕ)
  | replay (w : W) (id : ℕ)
  | quarantine (w : W) (source : String) (errorClass : ErrorClass) (errorMessage : String)
      (raw : Record)
  | statement (w : W) (now : DateTime)
  | handled (w : W) (error : Option String)
  | abort (w : W)

section

variable {W : Type} [DecidableEq W]

def State.init : State W := ⟨.empty, fun _ => .idle, [], [], [], 0⟩

def State.take (s : State W) (w : W) (work : Work) : State W :=
  { s with hand := Function.update s.hand w work }

/-- The worker is done with the call. -/
def State.finish (s : State W) (w : W) (outcome : ReplayOutcome) : State W :=
  { s.take w .idle with outcomes := s.outcomes ++ [outcome] }

/-- `_on_quarantined`. -/
def State.alert (s : State W) (entry : Option Entry) (error : String) : State W :=
  match entry with
  | none => s
  | some entry => { s with alerts := s.alerts ++ [(entry, error)] }

def statement (maxReplayFailures : ℤ) (s : State W) (w : W) (now : DateTime) : Option (State W) :=
  match s.hand w with
  | .idle | .handle _ => none
  | .get id =>
    match s.queue.find? id with
    | none => some (s.finish w ⟨id, .skipped, some "entry not found"⟩)
    | some entry =>
      if entry.status ≠ .pending then
        some (s.finish w ⟨id, .skipped, some ("entry status is '" ++ entry.status.text ++ "'")⟩)
      else some (s.take w (.handle entry))
  | .succeed id =>
    some ({ s with queue := s.queue.setEntry id (Entry.markReplayed now) fun _ => rfl }.finish w
      ⟨id, .replayed, none⟩)
  | .fail id error =>
    some ({ s with
      queue := s.queue.setEntry id (Entry.recordFailure maxReplayFailures error) fun _ => rfl
      }.take w (.check id error))
  | .check id error =>
    match s.queue.find? id with
    | none => some (s.finish w ⟨id, .failed, some error⟩)
    | some entry =>
      if entry.status ≠ .quarantined then some (s.finish w ⟨id, .failed, some error⟩)
      else some ((s.alert (some entry) error).finish w ⟨id, .quarantined, some error⟩)
  | .quarantinePush source errorClass errorMessage raw =>
    some ({ s with queue := s.queue.push source errorClass errorMessage raw now }.take w
      (.quarantineSet (s.queue.sequence + 1) errorMessage))
  | .quarantineSet id errorMessage =>
    some ({ s with queue := s.queue.setEntry id (Entry.quarantine errorMessage) fun _ => rfl
      }.take w (.quarantineGet id errorMessage))
  | .quarantineGet id errorMessage =>
    some ((s.alert (s.queue.find? id) errorMessage).take w .idle)

def turn (maxReplayFailures : ℤ) (s : State W) : Turn W → Option (State W)
  | .push source errorClass errorMessage raw now =>
    some { s with queue := s.queue.push source errorClass errorMessage raw now }
  | .markDead id => some { s with queue := s.queue.setEntry id Entry.markDead fun _ => rfl }
  | .replay w id =>
    match s.hand w with
    | .idle => some (s.take w (.get id))
    | _ => none
  | .quarantine w source errorClass errorMessage raw =>
    match s.hand w with
    | .idle => some (s.take w (.quarantinePush source errorClass errorMessage raw))
    | _ => none
  | .statement w now => statement maxReplayFailures s w now
  | .handled w error =>
    match s.hand w with
    | .handle entry =>
      let s := { s with handled := s.handled ++ [(entry.id, decode entry.rawRecord)] }
      match error with
      | none => some (s.take w (.succeed entry.id))
      | some error => some (s.take w (.fail entry.id error))
    | _ => none
  | .abort w => some { s.take w .idle with aborts := s.aborts + 1 }

def Step (maxReplayFailures : ℤ) (s : State W) (e : Turn W) (t : State W) : Prop :=
  turn maxReplayFailures s e = some t

def State.calls (s : State W) (id : ℕ) : ℕ := s.handled.countP fun call => decide (call.1 = id)

def toHandle (id : ℕ) : Work → ℕ
  | .handle entry => if entry.id = id then 1 else 0
  | _ => 0

/-- A handler was called with the entry, and what came of it is not written yet. -/
def toWrite (id : ℕ) : Work → ℕ
  | .succeed id' => if id' = id then 1 else 0
  | .fail id' _ => if id' = id then 1 else 0
  | _ => 0

theorem toHandle_add_toWrite_le (id : ℕ) (work : Work) :
    toHandle id work + toWrite id work ≤ 1 := by
  cases work with
  | handle entry => simp only [toHandle, toWrite]; split_ifs <;> omega
  | succeed id' => simp only [toHandle, toWrite]; split_ifs <;> omega
  | fail id' error => simp only [toHandle, toWrite]; split_ifs <;> omega
  | _ => exact Nat.zero_le _

@[simp] theorem toHandle_handle (id : ℕ) (entry : Entry) :
    toHandle id (.handle entry) = if entry.id = id then 1 else 0 := rfl

@[simp] theorem toWrite_handle (id : ℕ) (entry : Entry) : toWrite id (.handle entry) = 0 := rfl

@[simp] theorem toHandle_idle (id : ℕ) : toHandle id .idle = 0 := rfl

@[simp] theorem toWrite_idle (id : ℕ) : toWrite id .idle = 0 := rfl

variable {maxReplayFailures : ℤ} {s t : State W} {w : W} {e : Turn W}

def limit (maxReplayFailures : ℤ) : ℤ := max maxReplayFailures 1

structure Known (s : State W) : Prop where
  hand : ∀ w entry, s.hand w = .handle entry →
    ∃ row ∈ s.queue.rows, row.id = entry.id ∧ row.rawRecord = entry.rawRecord
  handled : ∀ call ∈ s.handled,
    ∃ row ∈ s.queue.rows, row.id = call.1 ∧ decode row.rawRecord = call.2

/-- Rows stay, with the record that they have. -/
def Keeps (q q' : Queue) : Prop :=
  ∀ row ∈ q.rows, ∃ row' ∈ q'.rows, row'.id = row.id ∧ row'.source = row.source ∧
    row'.errorClass = row.errorClass ∧ row'.errorMessage = row.errorMessage ∧
    row'.rawRecord = row.rawRecord ∧ row'.createdAt = row.createdAt ∧
    (row'.status = .pending → row.status = .pending)

theorem Keeps.refl (q : Queue) : Keeps q q :=
  fun row hrow => ⟨row, hrow, rfl, rfl, rfl, rfl, rfl, rfl, id⟩

theorem Keeps.trans {q q' q'' : Queue} (h : Keeps q q') (h' : Keeps q' q'') : Keeps q q'' := by
  intro row hrow
  obtain ⟨row', hrow', hid, hsource, hclass, hmessage, hraw, hcreated, hstatus⟩ := h row hrow
  obtain ⟨row'', hrow'', hid', hsource', hclass', hmessage', hraw', hcreated', hstatus'⟩ :=
    h' row' hrow'
  exact ⟨row'', hrow'', hid'.trans hid, hsource'.trans hsource, hclass'.trans hclass,
    hmessage'.trans hmessage, hraw'.trans hraw, hcreated'.trans hcreated, hstatus ∘ hstatus'⟩

theorem keeps_push (q : Queue) (source : String) (errorClass : ErrorClass) (errorMessage : String)
    (raw : Record) (now : DateTime) : Keeps q (q.push source errorClass errorMessage raw now) :=
  fun row hrow => ⟨row, IdTable.mem_insert.mpr (.inl hrow), rfl, rfl, rfl, rfl, rfl, rfl, id⟩

def Marks (set : Entry → Entry) : Prop :=
  ∀ row, (set row).id = row.id ∧ (set row).source = row.source ∧
    (set row).errorClass = row.errorClass ∧ (set row).errorMessage = row.errorMessage ∧
    (set row).rawRecord = row.rawRecord ∧ (set row).createdAt = row.createdAt ∧
    ((set row).status = .pending → row.status = .pending)

theorem keeps_setEntry (q : Queue) (id : ℕ) {set : Entry → Entry} (keeps) (h : Marks set) :
    Keeps q (q.setEntry id set keeps) := by
  intro row hrow
  refine ⟨_, IdTable.mem_update.mpr ⟨row, hrow, rfl⟩, ?_⟩
  split_ifs
  · exact h row
  · exact ⟨rfl, rfl, rfl, rfl, rfl, rfl, fun h => h⟩

theorem marks_markReplayed (now : DateTime) : Marks (Entry.markReplayed now) :=
  fun _ => ⟨rfl, rfl, rfl, rfl, rfl, rfl, nofun⟩

theorem marks_markDead : Marks Entry.markDead := fun _ => ⟨rfl, rfl, rfl, rfl, rfl, rfl, nofun⟩

theorem marks_quarantine (errorMessage : String) : Marks (Entry.quarantine errorMessage) :=
  fun _ => ⟨rfl, rfl, rfl, rfl, rfl, rfl, nofun⟩

theorem marks_recordFailure (error : String) :
    Marks (Entry.recordFailure maxReplayFailures error) := by
  intro row
  refine ⟨rfl, rfl, rfl, rfl, rfl, rfl, ?_⟩
  unfold Entry.recordFailure
  dsimp only
  split_ifs
  · nofun
  · exact id

/-- Nothing that a handler is called with. -/
def Light (work : Work) : Prop := ∀ id, toHandle id work = 0 ∧ toWrite id work = 0

/-- The same in hand, but for what is light. -/
def SameHands (hand hand' : W → Work) : Prop :=
  ∀ v, hand' v = hand v ∨ Light (hand v) ∧ Light (hand' v)

omit [DecidableEq W] in
theorem SameHands.refl (hand : W → Work) : SameHands hand hand := fun _ => .inl rfl

theorem SameHands.update {hand : W → Work} {work : Work} (hbefore : Light (hand w))
    (hafter : Light work) : SameHands hand (Function.update hand w work) := by
  intro v
  by_cases hv : v = w
  · subst hv
    rw [Function.update_self]
    exact .inr ⟨hbefore, hafter⟩
  · exact .inl (Function.update_of_ne hv _ _)

omit [DecidableEq W] in
theorem SameHands.toHandle {hand hand' : W → Work} (h : SameHands hand hand') (id : ℕ) (v : W) :
    toHandle id (hand' v) = toHandle id (hand v) := by
  rcases h v with hsame | ⟨hbefore, hafter⟩
  · rw [hsame]
  · rw [(hbefore id).1, (hafter id).1]

omit [DecidableEq W] in
theorem SameHands.toWrite {hand hand' : W → Work} (h : SameHands hand hand') (id : ℕ) (v : W) :
    toWrite id (hand' v) = toWrite id (hand v) := by
  rcases h v with hsame | ⟨hbefore, hafter⟩
  · rw [hsame]
  · rw [(hbefore id).2, (hafter id).2]

inductive Move (maxReplayFailures : ℤ) (s t : State W) : Prop where
  | quiet (hqueue : t.queue = s.queue) (hhandled : t.handled = s.handled)
      (haborts : t.aborts = s.aborts) (hhand : SameHands s.hand t.hand)
  | push (source errorClass errorMessage raw now)
      (hqueue : t.queue = s.queue.push source errorClass errorMessage raw now)
      (hhandled : t.handled = s.handled) (haborts : t.aborts = s.aborts)
      (hhand : SameHands s.hand t.hand)
  | mark (id set keeps) (hqueue : t.queue = s.queue.setEntry id set keeps) (hmarks : Marks set)
      (hset : ∀ row, (set row).retryCount = row.retryCount ∧ (set row).status ≠ .pending)
      (hhandled : t.handled = s.handled) (haborts : t.aborts = s.aborts)
      (hhand : SameHands s.hand t.hand)
  | load (w : W) (entry) (hqueue : t.queue = s.queue) (hhandled : t.handled = s.handled)
      (haborts : t.aborts = s.aborts) (hentry : entry ∈ s.queue.rows)
      (hpending : entry.status = .pending) (hlight : Light (s.hand w))
      (hhand : t.hand = Function.update s.hand w (.handle entry))
  | handled (w : W) (entry work) (hqueue : t.queue = s.queue) (hbefore : s.hand w = .handle entry)
      (hhandled : t.handled = s.handled ++ [(entry.id, decode entry.rawRecord)])
      (haborts : t.aborts = s.aborts)
      (hwork : ∀ id, toHandle id work = 0 ∧ toWrite id work = if entry.id = id then 1 else 0)
      (hhand : t.hand = Function.update s.hand w work)
  | write (w : W) (id set keeps work) (hqueue : t.queue = s.queue.setEntry id set keeps)
      (hmarks : Marks set) (hset : ∀ row, (set row).retryCount = row.retryCount + 1 ∧
        ((set row).status = .pending → (set row).replayFailures = row.replayFailures + 1 ∧
          ((set row).replayFailures : ℤ) < maxReplayFailures))
      (hbefore : ∀ id', toHandle id' (s.hand w) = 0 ∧
        toWrite id' (s.hand w) = if id = id' then 1 else 0)
      (hhandled : t.handled = s.handled) (haborts : t.aborts = s.aborts) (hlight : Light work)
      (hhand : t.hand = Function.update s.hand w work)
  | abort (w : W) (hqueue : t.queue = s.queue) (hhandled : t.handled = s.handled)
      (haborts : t.aborts = s.aborts + 1) (hhand : t.hand = Function.update s.hand w .idle)

theorem statement_move {now : DateTime}
    (h : statement maxReplayFailures s w now = some t) : Move maxReplayFailures s t := by
  unfold statement at h
  split at h
  · cases h
  · cases h
  · rename_i id hhand
    have hlight : Light (s.hand w) := by
      rw [hhand]
      exact fun _ => ⟨rfl, rfl⟩
    split at h
    · cases h
      exact .quiet rfl rfl rfl (.update hlight fun _ => ⟨rfl, rfl⟩)
    · rename_i entry hentry
      split_ifs at h with hstatus
      · cases h
        exact .quiet rfl rfl rfl (.update hlight fun _ => ⟨rfl, rfl⟩)
      · cases h
        exact .load w entry rfl rfl rfl (IdTable.find?_eq_some.mp hentry).1 (not_not.mp hstatus)
          hlight rfl
  · rename_i id hhand
    cases h
    refine .write w id (Entry.markReplayed now) (fun _ => rfl) .idle rfl (marks_markReplayed now)
      (fun _ => ⟨rfl, nofun⟩) ?_ rfl rfl (fun _ => ⟨rfl, rfl⟩) rfl
    rw [hhand]
    exact fun _ => ⟨rfl, rfl⟩
  · rename_i id error hhand
    cases h
    refine .write w id (Entry.recordFailure maxReplayFailures error) (fun _ => rfl)
      (.check id error) rfl (marks_recordFailure error) (fun row => ⟨rfl, ?_⟩) ?_ rfl rfl
      (fun _ => ⟨rfl, rfl⟩) rfl
    · unfold Entry.recordFailure
      dsimp only
      split_ifs with hlimit
      · nofun
      · intro _
        refine ⟨rfl, ?_⟩
        push_cast
        omega
    · rw [hhand]
      exact fun _ => ⟨rfl, rfl⟩
  · rename_i id error hhand
    have hlight : Light (s.hand w) := by
      rw [hhand]
      exact fun _ => ⟨rfl, rfl⟩
    split at h
    · cases h
      exact .quiet rfl rfl rfl (.update hlight fun _ => ⟨rfl, rfl⟩)
    · split_ifs at h
      · cases h
        exact .quiet rfl rfl rfl (.update hlight fun _ => ⟨rfl, rfl⟩)
      · cases h
        exact .quiet rfl rfl rfl (.update hlight fun _ => ⟨rfl, rfl⟩)
  · rename_i source errorClass errorMessage raw hhand
    cases h
    refine .push source errorClass errorMessage raw now rfl rfl rfl (.update ?_ fun _ => ⟨rfl, rfl⟩)
    rw [hhand]
    exact fun _ => ⟨rfl, rfl⟩
  · rename_i id errorMessage hhand
    cases h
    refine .mark id (Entry.quarantine errorMessage) (fun _ => rfl) rfl
      (marks_quarantine errorMessage) (fun _ => ⟨rfl, nofun⟩) rfl rfl
      (.update ?_ fun _ => ⟨rfl, rfl⟩)
    rw [hhand]
    exact fun _ => ⟨rfl, rfl⟩
  · rename_i id errorMessage hhand
    have hlight : Light (s.hand w) := by
      rw [hhand]
      exact fun _ => ⟨rfl, rfl⟩
    cases h
    unfold State.alert
    split
    · exact .quiet rfl rfl rfl (.update hlight fun _ => ⟨rfl, rfl⟩)
    · exact .quiet rfl rfl rfl (.update hlight fun _ => ⟨rfl, rfl⟩)

theorem step_move (h : Step maxReplayFailures s e t) : Move maxReplayFailures s t := by
  cases e with
  | push source errorClass errorMessage raw now =>
    cases h
    exact .push source errorClass errorMessage raw now rfl rfl rfl (.refl _)
  | markDead id =>
    cases h
    exact .mark id Entry.markDead (fun _ => rfl) rfl marks_markDead (fun _ => ⟨rfl, nofun⟩) rfl rfl
      (.refl _)
  | replay w id =>
    unfold Step turn at h
    dsimp only at h
    split at h
    · rename_i hhand
      cases h
      refine .quiet rfl rfl rfl (.update ?_ fun _ => ⟨rfl, rfl⟩)
      rw [hhand]
      exact fun _ => ⟨rfl, rfl⟩
    · cases h
  | quarantine w source errorClass errorMessage raw =>
    unfold Step turn at h
    dsimp only at h
    split at h
    · rename_i hhand
      cases h
      refine .quiet rfl rfl rfl (.update ?_ fun _ => ⟨rfl, rfl⟩)
      rw [hhand]
      exact fun _ => ⟨rfl, rfl⟩
    · cases h
  | statement w now => exact statement_move h
  | handled w error =>
    unfold Step turn at h
    dsimp only at h
    split at h
    · rename_i entry hhand
      cases error with
      | none =>
        cases h
        exact .handled w entry (.succeed entry.id) rfl hhand rfl rfl (fun _ => ⟨rfl, rfl⟩) rfl
      | some error =>
        cases h
        exact .handled w entry (.fail entry.id error) rfl hhand rfl rfl (fun _ => ⟨rfl, rfl⟩) rfl
    · cases h
  | abort w =>
    cases h
    exact .abort w rfl rfl rfl rfl

theorem Move.keeps (h : Move maxReplayFailures s t) : Keeps s.queue t.queue := by
  cases h with
  | push source errorClass errorMessage raw now hqueue =>
    exact hqueue ▸ keeps_push _ source errorClass errorMessage raw now
  | mark id set keeps hqueue hmarks => exact hqueue ▸ keeps_setEntry _ id keeps hmarks
  | write w id set keeps work hqueue hmarks => exact hqueue ▸ keeps_setEntry _ id keeps hmarks
  | quiet hqueue => exact hqueue ▸ .refl _
  | load w entry hqueue => exact hqueue ▸ .refl _
  | handled w entry work hqueue => exact hqueue ▸ .refl _
  | abort w hqueue => exact hqueue ▸ .refl _

omit [DecidableEq W] in
theorem Known.start : Known (State.init : State W) where
  hand v entry hentry := by
    have hidle : Work.idle = .handle entry := hentry
    cases hidle
  handled call hcall := absurd hcall List.not_mem_nil

omit [DecidableEq W] in
theorem Known.of_keeps (h : Known s) (hkeeps : Keeps s.queue t.queue)
    (hhand : ∀ v entry, t.hand v = .handle entry → s.hand v = .handle entry ∨
      entry ∈ s.queue.rows)
    (hhandled : ∀ call ∈ t.handled, call ∈ s.handled ∨
      ∃ v entry, s.hand v = .handle entry ∧ call = (entry.id, decode entry.rawRecord)) :
    Known t where
  hand v entry hentry := by
    have hrow : ∃ row ∈ s.queue.rows, row.id = entry.id ∧ row.rawRecord = entry.rawRecord := by
      rcases hhand v entry hentry with hbefore | hmem
      · exact h.hand v entry hbefore
      · exact ⟨entry, hmem, rfl, rfl⟩
    obtain ⟨row, hmem, hid, hraw⟩ := hrow
    obtain ⟨row', hmem', hid', -, -, -, hraw', -⟩ := hkeeps row hmem
    exact ⟨row', hmem', hid'.trans hid, hraw'.trans hraw⟩
  handled call hcall := by
    have hrow : ∃ row ∈ s.queue.rows, row.id = call.1 ∧ decode row.rawRecord = call.2 := by
      rcases hhandled call hcall with hbefore | ⟨v, entry, hentry, rfl⟩
      · exact h.handled call hbefore
      · obtain ⟨row, hmem, hid, hraw⟩ := h.hand v entry hentry
        exact ⟨row, hmem, hid, by rw [hraw]⟩
    obtain ⟨row, hmem, hid, hraw⟩ := hrow
    obtain ⟨row', hmem', hid', -, -, -, hraw', -⟩ := hkeeps row hmem
    exact ⟨row', hmem', hid'.trans hid, by rw [hraw', hraw]⟩

omit [DecidableEq W] in
theorem not_light_handle (entry : Entry) : ¬ Light (.handle entry) := by
  intro h
  have hone := (h entry.id).1
  rw [toHandle, if_pos rfl] at hone
  cases hone

omit [DecidableEq W] in
theorem SameHands.handle {hand hand' : W → Work} (h : SameHands hand hand') {v : W}
    {entry : Entry} (hentry : hand' v = .handle entry) : hand v = .handle entry := by
  rcases h v with hsame | ⟨-, hafter⟩
  · exact hsame ▸ hentry
  · exact absurd (hentry ▸ hafter) (not_light_handle entry)

theorem Known.move (h : Known s) (hmove : Move maxReplayFailures s t) : Known t := by
  have hkeeps := hmove.keeps
  have same (hhandled : t.handled = s.handled) (hhand : SameHands s.hand t.hand) : Known t :=
    h.of_keeps hkeeps (fun v entry hentry => .inl (hhand.handle hentry))
      fun call hcall => .inl (hhandled ▸ hcall)
  -- One worker takes something in hand, which is not for a handler.
  have taken {w : W} {work : Work} (hhand : t.hand = Function.update s.hand w work)
      (hwork : ∀ id, toHandle id work = 0) (v : W) (entry : Entry)
      (hentry : t.hand v = .handle entry) : s.hand v = .handle entry := by
    rw [hhand] at hentry
    by_cases hv : v = w
    · subst hv
      rw [Function.update_self] at hentry
      have hnone := hwork entry.id
      rw [hentry, toHandle_handle, if_pos rfl] at hnone
      cases hnone
    · rwa [Function.update_of_ne hv] at hentry
  cases hmove with
  | quiet _ hhandled _ hhand => exact same hhandled hhand
  | push _ _ _ _ _ _ hhandled _ hhand => exact same hhandled hhand
  | mark _ _ _ _ _ _ hhandled _ hhand => exact same hhandled hhand
  | write w id set keeps work _ _ _ _ hhandled _ hlight hhand =>
    exact h.of_keeps hkeeps (fun v entry hentry => .inl (taken hhand (fun id => (hlight id).1)
      v entry hentry)) fun call hcall => .inl (hhandled ▸ hcall)
  | abort w _ hhandled _ hhand =>
    exact h.of_keeps hkeeps (fun v entry hentry => .inl (taken hhand (fun _ => rfl)
      v entry hentry)) fun call hcall => .inl (hhandled ▸ hcall)
  | load w entry hqueue hhandled _ hentry _ _ hhand =>
    apply h.of_keeps hkeeps
    · intro v entry' hentry'
      rw [hhand] at hentry'
      by_cases hv : v = w
      · subst hv
        rw [Function.update_self] at hentry'
        cases hentry'
        exact .inr hentry
      · exact .inl (by rwa [Function.update_of_ne hv] at hentry')
    · exact fun call hcall => .inl (hhandled ▸ hcall)
  | handled w entry work hqueue hbefore hhandled _ hwork hhand =>
    apply h.of_keeps hkeeps
    · exact fun v entry' hentry' => .inl (taken hhand (fun id => (hwork id).1) v entry' hentry')
    · intro call hcall
      rw [hhandled] at hcall
      rcases List.mem_append.mp hcall with hcall | hcall
      · exact .inl hcall
      · exact .inr ⟨w, entry, hbefore, List.mem_singleton.mp hcall⟩

end

section

variable {maxReplayFailures : ℤ} {workers aborts calls handling writing handling' writing' : ℕ}
  {row : Entry}

/-- A call of a handler is written, in hand, or lost with a worker, and as long as an entry is
pending there were fewer failures than the limit. -/
structure Balanced (maxReplayFailures : ℤ) (workers aborts calls handling writing : ℕ)
    (row : Entry) : Prop where
  written : calls ≤ row.retryCount + writing + aborts
  pending : row.status = .pending →
    row.retryCount = row.replayFailures ∧ (row.replayFailures : ℤ) < limit maxReplayFailures
  bounded : (calls + handling : ℤ) ≤ limit maxReplayFailures - 1 + workers + aborts

theorem Balanced.new (hcalls : calls = 0) (hhandling : handling = 0) (source : String)
    (errorClass : ErrorClass) (errorMessage : String) (raw : Record) (now : DateTime) (id : ℕ) :
    Balanced maxReplayFailures workers aborts calls handling writing
      (.new source errorClass errorMessage raw now id) := by
  have hlimit : 1 ≤ limit maxReplayFailures := le_max_right _ _
  exact ⟨hcalls.le.trans (Nat.zero_le _), fun _ => ⟨rfl, hlimit⟩, by omega⟩

variable (h : Balanced maxReplayFailures workers aborts calls handling writing row)
include h

theorem Balanced.mark {set : Entry → Entry}
    (hset : (set row).retryCount = row.retryCount ∧ (set row).status ≠ .pending) :
    Balanced maxReplayFailures workers aborts calls handling writing (set row) where
  written := hset.1.symm ▸ h.written
  pending hpending := absurd hpending hset.2
  bounded := h.bounded

/-- All calls so far of an entry that is read as pending failed or are in hand. -/
theorem Balanced.load (hpending : row.status = .pending)
    (hworkers : handling + 1 + writing ≤ workers) :
    Balanced maxReplayFailures workers aborts calls (handling + 1) writing row where
  written := h.written
  pending := h.pending
  bounded := by
    have hcalls := h.written
    have hfailures := h.pending hpending
    push_cast
    omega

theorem Balanced.handled (hhandling : handling' + 1 = handling) :
    Balanced maxReplayFailures workers aborts (calls + 1) handling' (writing + 1) row where
  written := by
    have hcalls := h.written
    omega
  pending := h.pending
  bounded := by
    have hbounded := h.bounded
    push_cast
    omega

theorem Balanced.write {set : Entry → Entry} (hwriting : writing' + 1 = writing)
    (hmarks : (set row).status = .pending → row.status = .pending)
    (hset : (set row).retryCount = row.retryCount + 1 ∧
      ((set row).status = .pending → (set row).replayFailures = row.replayFailures + 1 ∧
        ((set row).replayFailures : ℤ) < maxReplayFailures)) :
    Balanced maxReplayFailures workers aborts calls handling writing' (set row) where
  written := by
    have hcalls := h.written
    rw [hset.1]
    omega
  pending hpending := by
    obtain ⟨hfailures, hlimit⟩ := hset.2 hpending
    have hsame := (h.pending (hmarks hpending)).1
    exact ⟨by rw [hset.1, hfailures, hsame], hlimit.trans_le (le_max_left _ _)⟩
  bounded := h.bounded

theorem Balanced.abort {x y : ℕ} (hhandling : handling' + x = handling)
    (hwriting : writing' + y = writing) (hone : x + y ≤ 1) :
    Balanced maxReplayFailures workers (aborts + 1) calls handling' writing' row where
  written := by
    have hcalls := h.written
    omega
  pending := h.pending
  bounded := by
    have hbounded := h.bounded
    push_cast
    omega

end

section

variable {W : Type} [Fintype W] {maxReplayFailures : ℤ} {s t : State W}

def Counted (maxReplayFailures : ℤ) (s : State W) : Prop :=
  ∀ row ∈ s.queue.rows, Balanced maxReplayFailures (Fintype.card W) s.aborts (s.calls row.id)
    (load (toHandle row.id) s.hand) (load (toWrite row.id) s.hand) row

theorem Counted.start : Counted maxReplayFailures (State.init : State W) :=
  fun _ hrow => absurd hrow List.not_mem_nil

omit [Fintype W] in
theorem calls_concat {entry : Entry} {record : Record}
    (h : t.handled = s.handled ++ [(entry.id, record)]) (id : ℕ) :
    t.calls id = s.calls id + if entry.id = id then 1 else 0 := by
  rw [State.calls, h, List.countP_append, List.countP_singleton, State.calls]
  simp only [decide_eq_true_eq]

omit [Fintype W] in
theorem calls_congr (h : t.handled = s.handled) (id : ℕ) : t.calls id = s.calls id := by
  rw [State.calls, State.calls, h]

theorem SameHands.load {hand hand' : W → Work} (h : SameHands hand hand') (id : ℕ) :
    load (TradeDlq.toHandle id) hand' = load (TradeDlq.toHandle id) hand ∧
      load (TradeDlq.toWrite id) hand' = load (TradeDlq.toWrite id) hand :=
  ⟨Finset.sum_congr rfl fun v _ => h.toHandle id v, Finset.sum_congr rfl fun v _ => h.toWrite id v⟩

theorem load_in_hand_le (id : ℕ) (hand : W → Work) :
    load (toHandle id) hand + load (toWrite id) hand ≤ Fintype.card W := by
  rw [← load_add]
  exact load_le_card (toHandle_add_toWrite_le id)

theorem Known.fresh (h : Known s) {id : ℕ} (hid : s.queue.sequence < id) :
    s.calls id = 0 ∧ load (toHandle id) s.hand = 0 := by
  have hnone {row : Entry} (hrow : row ∈ s.queue.rows) : row.id ≠ id := by
    have := s.queue.bounded row hrow
    omega
  refine ⟨?_, load_eq_zero fun v => ?_⟩
  · rw [State.calls, List.countP_eq_zero]
    intro call hcall hsame
    obtain ⟨row, hrow, hrowId, -⟩ := h.handled call hcall
    exact hnone hrow (hrowId.trans (of_decide_eq_true hsame))
  · cases hhandle : s.hand v with
    | handle entry =>
      obtain ⟨row, hrow, hrowId, -⟩ := h.hand v entry hhandle
      exact if_neg (hrowId ▸ hnone hrow)
    | _ => rfl

variable [DecidableEq W]

theorem Counted.move (h : Counted maxReplayFailures s) (hknown : Known s)
    (hmove : Move maxReplayFailures s t) : Counted maxReplayFailures t := by
  intro row hrow
  cases hmove with
  | quiet hqueue hhandled haborts hhand =>
    rw [calls_congr hhandled, (hhand.load row.id).1, (hhand.load row.id).2, haborts]
    exact h row (hqueue ▸ hrow)
  | push source errorClass errorMessage raw now hqueue hhandled haborts hhand =>
    rw [calls_congr hhandled, (hhand.load row.id).1, (hhand.load row.id).2, haborts]
    rcases IdTable.mem_insert.mp (hqueue ▸ hrow) with hrow | rfl
    · exact h row hrow
    · obtain ⟨hcalls, hhandling⟩ := hknown.fresh (Nat.lt_succ_self s.queue.sequence)
      exact .new hcalls hhandling source errorClass errorMessage raw now (s.queue.sequence + 1)
  | mark id set keeps hqueue hmarks hset hhandled haborts hhand =>
    obtain ⟨row', hrow', rfl⟩ := IdTable.mem_update.mp (hqueue ▸ hrow)
    rw [calls_congr hhandled, (hhand.load _).1, (hhand.load _).2, haborts]
    split_ifs
    · rw [keeps row']
      exact (h row' hrow').mark (hset row')
    · exact h row' hrow'
  | load w entry hqueue hhandled haborts hentry hpending hlight hhand =>
    have hmem : row ∈ s.queue.rows := hqueue ▸ hrow
    have hhandling := load_update (toHandle row.id) s.hand w (.handle entry)
    have hwriting := load_update (toWrite row.id) s.hand w (.handle entry)
    rw [(hlight row.id).1, ← hhand, toHandle_handle, Nat.add_zero] at hhandling
    rw [(hlight row.id).2, ← hhand, toWrite_handle, Nat.add_zero, Nat.add_zero] at hwriting
    have hhands := load_in_hand_le row.id t.hand
    rw [hhandling, hwriting] at hhands
    rw [calls_congr hhandled, haborts, hhandling, hwriting]
    split_ifs at hhands ⊢ with hid
    · obtain rfl := IdTable.eq_of_id_eq hentry hmem hid
      exact (h entry hmem).load hpending hhands
    · exact h row hmem
  | handled w entry work hqueue hbefore hhandled haborts hwork hhand =>
    have hmem : row ∈ s.queue.rows := hqueue ▸ hrow
    have hhandling := load_update (toHandle row.id) s.hand w work
    have hwriting := load_update (toWrite row.id) s.hand w work
    rw [(hwork row.id).1, hbefore, ← hhand, toHandle_handle, Nat.add_zero] at hhandling
    rw [(hwork row.id).2, hbefore, ← hhand, toWrite_handle, Nat.add_zero] at hwriting
    rw [calls_concat hhandled, haborts, hwriting]
    split_ifs at hhandling ⊢
    · exact (h row hmem).handled hhandling
    · rw [Nat.add_zero] at hhandling
      rw [hhandling]
      exact h row hmem
  | write w id set keeps work hqueue hmarks hset hbefore hhandled haborts hlight hhand =>
    obtain ⟨row', hrow', rfl⟩ := IdTable.mem_update.mp (hqueue ▸ hrow)
    have hid : (if row'.id = id then set row' else row').id = row'.id := by
      split_ifs
      · exact keeps row'
      · rfl
    have hhandling := load_update (toHandle row'.id) s.hand w work
    have hwriting := load_update (toWrite row'.id) s.hand w work
    rw [(hlight _).1, (hbefore _).1, ← hhand, Nat.add_zero, Nat.add_zero] at hhandling
    rw [(hlight _).2, (hbefore _).2, ← hhand, Nat.add_zero] at hwriting
    rw [hid, calls_congr hhandled, haborts, hhandling]
    split_ifs with hsame
    · rw [if_pos hsame.symm] at hwriting
      exact (h row' hrow').write hwriting (hmarks row').2.2.2.2.2.2 (hset row')
    · rw [if_neg fun heq => hsame heq.symm, Nat.add_zero] at hwriting
      rw [hwriting]
      exact h row' hrow'
  | abort w hqueue hhandled haborts hhand =>
    have hhandling := load_update (toHandle row.id) s.hand w .idle
    have hwriting := load_update (toWrite row.id) s.hand w .idle
    rw [toHandle_idle, ← hhand, Nat.add_zero] at hhandling
    rw [toWrite_idle, ← hhand, Nat.add_zero] at hwriting
    rw [calls_congr hhandled, haborts]
    exact (h row (hqueue ▸ hrow)).abort hhandling hwriting (toHandle_add_toWrite_le _ _)

theorem run_invariant {turns : List (Turn W)} (h : Run (Step maxReplayFailures) .init turns s) :
    Known s ∧ Counted maxReplayFailures s := by
  apply h.invariant (I := fun s => Known s ∧ Counted maxReplayFailures s)
  · rintro s e t ⟨hknown, hcounted⟩ hstep
    have hmove := step_move hstep
    exact ⟨hknown.move hmove, hcounted.move hknown hmove⟩
  · exact ⟨.start, .start⟩

omit [Fintype W] in
theorem run_keeps {turns : List (Turn W)} (h : Run (Step maxReplayFailures) s turns t) :
    Keeps s.queue t.queue := by
  induction h with
  | refl => exact .refl _
  | tail _ hstep ih => exact ih.trans (step_move hstep).keeps

end

/-- A pushed record stays in the queue as it was pushed. However the workers interleave, its
handlers are called with what was pushed, decoded, and fewer times than the failures that quarantine it and
the workers together, but for those that stopped in a call. -/
theorem pushed_replays {W : Type} [Fintype W] [DecidableEq W] {maxReplayFailures : ℤ}
    {s s' t : State W} {turns turns' : List (Turn W)} {source errorMessage : String}
    {errorClass : ErrorClass} {raw : Record} {now : DateTime}
    (hreached : Run (Step maxReplayFailures) .init turns s)
    (hpush : Step maxReplayFailures s (.push source errorClass errorMessage raw now) s')
    (hrun : Run (Step maxReplayFailures) s' turns' t) :
    ∃ row ∈ t.queue.rows, row.id = s.queue.sequence + 1 ∧ row.source = source ∧
      row.errorClass = errorClass ∧ row.errorMessage = errorMessage ∧
      row.rawRecord = raw.dumps ∧ row.createdAt = now ∧
      (∀ call ∈ t.handled, call.1 = row.id →
        call.2 = decode raw.dumps ∧ ∀ v, raw = .value v → call.2 = raw) ∧
      (t.calls row.id : ℤ) ≤ max maxReplayFailures 1 - 1 + Fintype.card W + t.aborts := by
  obtain ⟨hknown, hcounted⟩ := run_invariant ((hreached.tail hpush).append hrun)
  cases hpush
  have hnew : Entry.new source errorClass errorMessage raw now (s.queue.sequence + 1) ∈
      (s.queue.push source errorClass errorMessage raw now).rows :=
    IdTable.mem_insert.mpr (.inr rfl)
  obtain ⟨row, hrow, hid, hsource, hclass, hmessage, hraw, hcreated, -⟩ := run_keeps hrun _ hnew
  refine ⟨row, hrow, hid, hsource, hclass, hmessage, hraw, hcreated, ?_, ?_⟩
  · intro call hcall hsame
    obtain ⟨row', hrow', hid', hdecoded⟩ := hknown.handled call hcall
    obtain rfl := IdTable.eq_of_id_eq hrow' hrow (hid'.trans hsame)
    have hcalled : call.2 = decode raw.dumps := by rw [← hdecoded, hraw]; rfl
    refine ⟨hcalled, ?_⟩
    rintro v rfl
    rw [hcalled, decode_dumps]
  · have hbounded := (hcounted row hrow).bounded
    unfold limit at hbounded
    omega

theorem validDate_newYear : ValidDate 2026 1 1 := by decide

theorem validClock_midnight : ValidClock 0 0 0 0 := by decide

def newYear : DateTime :=
  ⟨2026, 1, 1, 0, 0, 0, 0, some 0, validDate_newYear, validClock_midnight, validOffset_utc⟩

def lost : Entry := .new "horizon" .networkError "timeout" (.value .null) newYear 1

def pushed : State Bool :=
  { State.init with
    queue := Queue.push .empty "horizon" .networkError "timeout" (.value .null) newYear }

def handled : State Bool :=
  { (pushed.take true (.get 1)).take true (.handle lost) with
    handled := [(1, decode lost.rawRecord)] }.take true (.succeed 1)

theorem run_handled : Run (Step 3) pushed
    [.replay true 1, .statement true newYear, .handled true none] handled := by
  have hreplay : Step 3 pushed (.replay true 1) (pushed.take true (.get 1)) := rfl
  have hget : Step 3 (pushed.take true (.get 1)) (.statement true newYear)
      ((pushed.take true (.get 1)).take true (.handle lost)) := rfl
  have hhandled : Step 3 ((pushed.take true (.get 1)).take true (.handle lost))
      (.handled true none) handled := rfl
  exact ((Run.single hreplay).tail hget).tail hhandled

theorem pushed_replays_null :
    ∃ row ∈ handled.queue.rows, row.id = 0 + 1 ∧ row.source = "horizon" ∧
      row.errorClass = .networkError ∧ row.errorMessage = "timeout" ∧
      row.rawRecord = (Record.value .null).dumps ∧ row.createdAt = newYear ∧
      (∀ call ∈ handled.handled, call.1 = row.id →
        call.2 = decode (Record.value .null).dumps ∧ ∀ v, Record.value .null = .value v →
          call.2 = .value .null) ∧
      (handled.calls row.id : ℤ) ≤ max 3 1 - 1 + Fintype.card Bool + handled.aborts :=
  pushed_replays (s := .init) (.refl _) rfl run_handled

end TradeDlq
