import LedgerLens.HorizonTrades
import LedgerLens.LabelledRuns

/-!
# The Horizon streamer

`HorizonStreamer` of `ingestion/horizon_streamer.py` with its bounded queue and its cursor
checkpoint (`ingestion/checkpoint.py`): each event is received, checked for a duplicate, recorded
for the checkpoint and enqueued, in this order. The streamer may fail or be stopped anywhere, and
its process may crash anywhere.
-/
namespace HorizonStreamer

open EventDedup HorizonTrades LabelledRuns

/-! ## The bounded queue -/

inductive OverflowStrategy where
  | block
  | dropNewest
  | dropOldest
  deriving DecidableEq, Repr

/-- A queue of events, by their places in the stream. -/
structure BoundedTradeQueue where
  maxsize : ℕ
  overflowStrategy : OverflowStrategy
  items : List ℕ
  dropped : ℕ
  maxsize_pos : 0 < maxsize
  bounded : items.length ≤ maxsize

namespace BoundedTradeQueue

def full (q : BoundedTradeQueue) : Prop := q.maxsize ≤ q.items.length

instance (q : BoundedTradeQueue) : Decidable q.full := inferInstanceAs (Decidable (_ ≤ _))

def empty (q : BoundedTradeQueue) : BoundedTradeQueue :=
  { q with items := [], dropped := 0, bounded := Nat.zero_le _ }

def putNowait (q : BoundedTradeQueue) (index : ℕ) (h : ¬ q.full) : BoundedTradeQueue :=
  { q with
    items := q.items ++ [index]
    bounded := by
      rw [List.length_append, List.length_singleton]
      exact Nat.lt_of_not_le h }

def getNowait (q : BoundedTradeQueue) : Option (ℕ × BoundedTradeQueue) :=
  match h : q.items with
  | [] => none
  | index :: rest =>
    some (index,
      { q with
        items := rest
        bounded := by
          have hbounded := q.bounded
          rw [h, List.length_cons] at hbounded
          omega })

theorem items_of_getNowait {q q' : BoundedTradeQueue} {index : ℕ}
    (h : q.getNowait = some (index, q')) : q.items = index :: q'.items := by
  rw [getNowait] at h
  split at h
  · cases h
  · rename_i head rest hitems
    obtain ⟨rfl, rfl⟩ := Prod.mk.inj (Option.some.inj h)
    exact hitems

/-- What `put` returns, once it does: the producer waits on a full queue that blocks. -/
def put (q : BoundedTradeQueue) (index : ℕ) : Option (BoundedTradeQueue × Bool) :=
  if h : q.full then
    match q.overflowStrategy with
    | .block => none
    | .dropNewest => some ({ q with dropped := q.dropped + 1 }, false)
    | .dropOldest =>
      some
        ({ q with
            items := q.items.tail ++ [index]
            dropped := q.dropped + 1
            bounded := by
              have hpos := q.maxsize_pos
              have hbounded := q.bounded
              have hfull : q.maxsize ≤ q.items.length := h
              rw [List.length_append, List.length_tail, List.length_singleton]
              omega },
          true)
  else some (q.putNowait index h, true)

end BoundedTradeQueue

/-! ## The streamer -/

structure Settings where
  ingestionDedupEnabled : Bool
  idempotencyReplayWindowSeconds : ℚ
  horizonDefaultCursor : String
  flushPolicy : FlushPolicy

/-- Where `run` stands. An accepted event is still to be marked as seen. -/
inductive Phase where
  | connecting
  | receiving (next : ℕ)
  | received (index : ℕ)
  | checked (index : ℕ) (shouldSkip : Bool)
  | enqueuing (index : ℕ)
  | accepted (index : ℕ)
  deriving DecidableEq, Repr

structure Streamer where
  dedupStore : Option IdempotencyKeyStore
  cursor : String
  phase : Phase
  running : Bool
  eventsSinceFlush : ℕ
  lastFlushTime : ℚ

/-- `checkpoint` is the file; `enqueued`, `discarded` and `handled` list the events that entered
the queue, that its policy turned away, and that the consumer took. -/
structure System (server : RedisServer) where
  redis : server.Data
  checkpoint : Option String
  queue : BoundedTradeQueue
  streamer : Option Streamer
  enqueued : List ℕ
  discarded : List ℕ
  handled : List ℕ

inductive Label where
  | start (now : ℚ) (redisConnected : Bool) (cursor : Option String)
  | connect (head : ℕ)
  | receive
  | check (readings : Readings)
  | record (now : ℚ) (written : Bool)
  | enqueue
  | mark (written : Bool)
  | lose
  | reject (deleted : Bool)
  | stop
  | halt (written : Bool)
  | fail (written : Bool)
  | crash
  | consume
  deriving DecidableEq

section Steps

variable {server : RedisServer} (py : Builtins) (settings : Settings) (stream : Stream)

namespace System

/-- A malformed cursor is not written, and a write may fail. -/
def save (s : System server) (pagingToken : String) (written : Bool) : System server :=
  if validateCursor py pagingToken ∧ written then { s with checkpoint := some pagingToken } else s

/-- A malformed checkpoint is none. -/
def load (s : System server) : Option String :=
  s.checkpoint.filter (validateCursor py)

/-- A given cursor comes first; a malformed one is an error. -/
def startCursor (s : System server) (cursor : Option String) : Option String :=
  match cursor with
  | some cursor => if validateCursor py cursor then some cursor else none
  | none =>
    match s.load py with
    | some stored => some stored
    | none =>
      if validateCursor py settings.horizonDefaultCursor then some settings.horizonDefaultCursor
      else none

def start (s : System server) (now : ℚ) (redisConnected : Bool) (cursor : Option String) :
    Option (System server) :=
  (s.startCursor py settings cursor).map fun cursor =>
    { s with
      streamer := some
        { dedupStore :=
            if settings.ingestionDedupEnabled then
              some (.init settings.idempotencyReplayWindowSeconds none redisConnected)
            else
              none
          cursor := cursor
          phase := .connecting
          running := true
          eventsSinceFlush := 0
          lastFlushTime := now } }

def receive (s : System server) (r : Streamer) (index : ℕ) : Option (System server) :=
  match stream.events[index]? with
  | none => none
  | some ⟨_, _, .skipped⟩ =>
    some { s with streamer := some { r with phase := .receiving (index + 1) } }
  | some _ => some { s with streamer := some { r with phase := .received index } }

/-- An event that is no trade is passed over. -/
def check (s : System server) (r : Streamer) (index : ℕ) (readings : Readings) : System server :=
  match stream.trade? index with
  | none => { s with streamer := some { r with phase := .receiving (index + 1) } }
  | some trade =>
    let out := checkTradeDedup py r.dedupStore s.redis trade readings
    { s with
      redis := out.2.1
      streamer := some { r with dedupStore := out.1, phase := .checked index out.2.2 } }

/-- `_record_processed_event`: the cursor of an event with a valid token, which the flush policy
may have saved. -/
def recordProcessedEvent (s : System server) (r : Streamer) (token : Option String) (now : ℚ)
    (written : Bool) : System server × Streamer :=
  match token.filter (validateCursor py) with
  | none => (s, r)
  | some cursor =>
    if settings.flushPolicy.shouldFlush (r.eventsSinceFlush + 1) r.lastFlushTime now then
      (s.save py cursor written,
        { r with cursor := cursor, eventsSinceFlush := 0, lastFlushTime := now })
    else
      (s, { r with cursor := cursor, eventsSinceFlush := r.eventsSinceFlush + 1 })

/-- `_flush_checkpoint`, at the end of `run`. -/
def flushCheckpoint (s : System server) (r : Streamer) (written : Bool) : System server :=
  if r.eventsSinceFlush ≠ 0 then s.save py r.cursor written else s

def ended (s : System server) (r : Streamer) (written : Bool) : System server :=
  { s.flushCheckpoint py r written with streamer := none }

def record (s : System server) (r : Streamer) (index : ℕ) (shouldSkip : Bool) (now : ℚ)
    (written : Bool) : System server :=
  let token := stream.events[index]?.bind Event.token
  let out := s.recordProcessedEvent py settings r token now written
  let phase := if shouldSkip then Phase.receiving (index + 1) else .enqueuing index
  { out.1 with streamer := some { out.2 with phase := phase } }

def enqueue (s : System server) (r : Streamer) (index : ℕ) : Option (System server) :=
  (s.queue.put index).map fun out =>
    if out.2 then
      { s with
        queue := out.1
        streamer := some { r with phase := .accepted index }
        enqueued := s.enqueued ++ [index] }
    else
      { s with
        queue := out.1
        streamer := some { r with phase := .receiving (index + 1) }
        discarded := s.discarded ++ [index] }

/-- The store has no `mark_seen`, whose failure ends `run`. -/
def mark (s : System server) (r : Streamer) (index : ℕ) (written : Bool) : System server :=
  if r.dedupStore.isSome then s.ended py r written
  else { s with streamer := some { r with phase := .receiving (index + 1) } }

def stepStreamer (s : System server) (r : Streamer) : Label → Option (System server)
  | .connect head =>
    match r.phase with
    | .connecting =>
      let next := if r.cursor = "now" then head else stream.covered r.cursor
      some { s with streamer := some { r with phase := .receiving next } }
    | _ => none
  | .receive =>
    match r.phase with
    | .receiving index => if r.running then s.receive stream r index else none
    | _ => none
  | .check readings =>
    match r.phase with
    | .received index => some (s.check py stream r index readings)
    | _ => none
  | .record now written =>
    match r.phase with
    | .checked index shouldSkip =>
      some (s.record py settings stream r index shouldSkip now written)
    | _ => none
  | .enqueue =>
    match r.phase with
    | .enqueuing index => s.enqueue r index
    | _ => none
  | .mark written =>
    match r.phase with
    | .accepted index => some (s.mark py r index written)
    | _ => none
  | .lose =>
    match r.phase with
    | .connecting | .receiving _ => some { s with streamer := some { r with phase := .connecting } }
    | _ => none
  | .reject deleted =>
    match r.phase with
    | .connecting | .receiving _ =>
      if r.cursor = "now" then none
      else
        some
          { s with
            checkpoint := if deleted then none else s.checkpoint
            streamer := some { r with cursor := "now", phase := .connecting } }
    | _ => none
  | .stop => some { s with streamer := some { r with running := false } }
  | .halt written =>
    match r.phase with
    | .connecting | .receiving _ => if r.running then none else some (s.ended py r written)
    | _ => none
  | .fail written => some (s.ended py r written)
  | _ => none

def next (s : System server) : Label → Option (System server)
  | .start now redisConnected cursor =>
    match s.streamer with
    | none => s.start py settings now redisConnected cursor
    | some _ => none
  | .crash => some { s with streamer := none, queue := s.queue.empty }
  | .consume =>
    s.queue.getNowait.map fun out =>
      { s with queue := out.2, handled := s.handled ++ [out.1] }
  | l =>
    match s.streamer with
    | none => none
    | some r => s.stepStreamer py settings stream r l

end System

/-! ## What is owed and what is done

The invariant is stated once for what the events of the stream are owed and for when an event is
done with: below, that it was accepted by the queue, or that it is kept for the consumer. -/

namespace System

variable (owed : ℕ → Prop) (done : System server → ℕ → Prop)

def Settled (s : System server) (n : ℕ) : Prop :=
  ∀ index < n, owed index → done s index

/-- A stream resumed from the cursor passes over done events only. -/
def Covered (s : System server) (cursor : String) : Prop :=
  cursor ≠ "now" → s.Settled owed done (stream.covered cursor)

def validToken (index : ℕ) : Option String :=
  (stream.events[index]?.bind Event.token).filter (validateCursor py)

def Registered (s : System server) (key : Key) : Prop :=
  KnownTo (s.streamer.bind Streamer.dedupStore) s.redis key

def Pending (r : Streamer) (index : ℕ) : Prop :=
  r.phase = .checked index false ∨ r.phase = .enqueuing index

def PhaseSettled (s : System server) (r : Streamer) : Prop :=
  match r.phase with
  | .connecting => s.Covered stream owed done r.cursor
  | .receiving n | .received n => s.Settled owed done n ∧ s.Covered stream owed done r.cursor
  | .checked index shouldSkip => s.Settled owed done index ∧ s.Covered stream owed done r.cursor ∧
      (shouldSkip → done s index)
  | .enqueuing index => s.Settled owed done index ∧
      (s.Covered stream owed done r.cursor ∨ validToken py stream index = some r.cursor)
  | .accepted index =>
      s.Settled owed done (index + 1) ∧ s.Covered stream owed done r.cursor

structure Invariant (s : System server) : Prop where
  checkpoint : ∀ cursor ∈ s.checkpoint, s.Covered stream owed done cursor
  default : s.Covered stream owed done settings.horizonDefaultCursor
  phase : ∀ r ∈ s.streamer, s.PhaseSettled py stream owed done r
  registered : ∀ index trade, stream.trade? index = some trade →
    s.Registered (streamKey py trade) → done s index ∨ ∃ r ∈ s.streamer, Pending r index

/-- `run` ends with no trade that Redis was given and that is not done. -/
def NoneTaken (s : System server) : Prop :=
  ∀ r ∈ s.streamer, ∀ index trade, Pending r index → stream.trade? index = some trade →
    ¬ done s index → ¬ ∃ t, server.Exists s.redis (DEDUP_REDIS_PREFIX ++ streamKey py trade) t

/-- The condition on one step. A stream opened at `now` or at a given cursor leaves out done
events only. An event that is not done is no event without a trade and is not read after its
replay window; the flush policy does not save its token before it is enqueued, and `run` does not
end between its check and its place in the queue with its token to be saved or its key
registered. -/
def Harmless (s : System server) : Label → Prop
  | .start _ _ cursor => ∀ token ∈ cursor, s.Covered stream owed done token
  | .connect head => ∀ r ∈ s.streamer, r.cursor = "now" → s.Settled owed done head
  | .check readings => ∀ r ∈ s.streamer, ∀ index, r.phase = .received index → ¬ done s index →
      (stream.trade? index = none → ¬ owed index) ∧
        ∀ trade store, stream.trade? index = some trade → store ∈ r.dedupStore →
          ¬ store.tooOld (some trade.ledgerCloseTime) readings
  | .record now written => ∀ r ∈ s.streamer, ∀ index, r.phase = .checked index false →
      ¬ done s index → (validToken py stream index).isSome → written →
      ¬ settings.flushPolicy.shouldFlush (r.eventsSinceFlush + 1) r.lastFlushTime now
  | .fail written => s.NoneTaken py stream done ∧
      ∀ r ∈ s.streamer, ∀ index, r.phase = .enqueuing index → ¬ done s index →
        (validToken py stream index).isSome → written → r.eventsSinceFlush = 0
  | .crash => s.NoneTaken py stream done
  | _ => True

variable {py settings stream owed done}

theorem settled_succ {s : System server} {n : ℕ} (h : s.Settled owed done n)
    (hn : owed n → done s n) : s.Settled owed done (n + 1) := by
  intro index hlt howed
  rcases Nat.lt_succ_iff_lt_or_eq.mp hlt with hlt | rfl
  · exact h index hlt howed
  · exact hn howed

theorem settled_congr {s t : System server} (h : ∀ index, done s index → done t index) {n : ℕ}
    (hs : s.Settled owed done n) : t.Settled owed done n :=
  fun index hlt howed => h index (hs index hlt howed)

theorem covered_congr {s t : System server} (h : ∀ index, done s index → done t index)
    {cursor : String} (hs : s.Covered stream owed done cursor) :
    t.Covered stream owed done cursor :=
  fun hnow => settled_congr h (hs hnow)

theorem phaseSettled_congr {s t : System server} (h : ∀ index, done s index → done t index)
    {r : Streamer} (hs : s.PhaseSettled py stream owed done r) :
    t.PhaseSettled py stream owed done r := by
  rw [PhaseSettled] at hs ⊢
  cases hphase : r.phase with
  | connecting =>
    rw [hphase] at hs
    exact covered_congr h hs
  | receiving n | received n =>
    rw [hphase] at hs
    exact ⟨settled_congr h hs.1, covered_congr h hs.2⟩
  | checked index shouldSkip =>
    rw [hphase] at hs
    exact ⟨settled_congr h hs.1, covered_congr h hs.2.1, fun hskip => h index (hs.2.2 hskip)⟩
  | enqueuing index =>
    rw [hphase] at hs
    exact ⟨settled_congr h hs.1, hs.2.imp_left (covered_congr h)⟩
  | accepted index =>
    rw [hphase] at hs
    exact ⟨settled_congr h hs.1, covered_congr h hs.2⟩

theorem covered_validToken {s : System server} {index : ℕ} {cursor : String}
    (h : validToken py stream index = some cursor) (hsettled : s.Settled owed done (index + 1)) :
    s.Covered stream owed done cursor := by
  intro _
  obtain ⟨htoken, -⟩ := Option.filter_eq_some_iff.mp h
  obtain ⟨event, hevent, htoken⟩ := Option.bind_eq_some_iff.mp htoken
  rwa [stream.covered_token index event cursor hevent htoken]

theorem save_cases (s : System server) (pagingToken : String) (written : Bool) :
    s.save py pagingToken written = s ∨
      written ∧ s.save py pagingToken written = { s with checkpoint := some pagingToken } := by
  rw [save]
  by_cases hwritten : validateCursor py pagingToken ∧ written
  · exact .inr ⟨hwritten.2, if_pos hwritten⟩
  · exact .inl (if_neg hwritten)

theorem covered_startCursor {s : System server} (h : s.Invariant py settings stream owed done)
    {cursor : Option String} (hcursor : ∀ token ∈ cursor, s.Covered stream owed done token)
    {token : String} (hstart : s.startCursor py settings cursor = some token) :
    s.Covered stream owed done token := by
  cases cursor with
  | some given =>
    by_cases hvalid : validateCursor py given
    · obtain rfl : given = token := by simpa [startCursor, hvalid] using hstart
      exact hcursor given rfl
    · simp [startCursor, hvalid] at hstart
  | none =>
    cases hload : s.load py with
    | some stored =>
      obtain rfl : stored = token := by simpa [startCursor, hload] using hstart
      exact h.checkpoint stored (Option.filter_eq_some_iff.mp hload).1
    | none =>
      by_cases hvalid : validateCursor py settings.horizonDefaultCursor
      · obtain rfl : settings.horizonDefaultCursor = token := by
          simpa [startCursor, hload, hvalid] using hstart
        exact h.default
      · simp [startCursor, hload, hvalid] at hstart

/-- Whether an event is done is a matter of the queue and of what came of it. -/
def Steady (done : System server → ℕ → Prop) : Prop :=
  ∀ s t : System server, t.queue = s.queue → t.enqueued = s.enqueued →
    t.discarded = s.discarded → t.handled = s.handled → ∀ index, done s index → done t index

section Keeping

variable {s t : System server} {r r' : Streamer}

theorem Invariant.keep (h : s.Invariant py settings stream owed done) (hr : s.streamer = some r)
    (hr' : t.streamer = some r') (hredis : t.redis = s.redis)
    (hstore : r'.dedupStore = r.dedupStore) (hdone : ∀ i, done s i → done t i)
    (hcheckpoint : ∀ cursor ∈ t.checkpoint,
      cursor ∈ s.checkpoint ∨ t.Covered stream owed done cursor)
    (hphase : t.PhaseSettled py stream owed done r')
    (hpending : ∀ i, Pending r i → done t i ∨ Pending r' i) :
    t.Invariant py settings stream owed done where
  checkpoint cursor hcursor := by
    rcases hcheckpoint cursor hcursor with hold | hcovered
    · exact covered_congr hdone (h.checkpoint cursor hold)
    · exact hcovered
  default := covered_congr hdone h.default
  phase q hq := by
    obtain rfl : r' = q := Option.some.inj (hr'.symm.trans hq)
    exact hphase
  registered index trade htrade hknown := by
    have hbefore : s.Registered (streamKey py trade) := by
      rw [Registered, hr', Option.bind_some, hstore, hredis] at hknown
      rwa [Registered, hr, Option.bind_some]
    rcases h.registered index trade htrade hbefore with hdoneBefore | ⟨q, hq, hpend⟩
    · exact .inl (hdone index hdoneBefore)
    · obtain rfl : r = q := Option.some.inj (hr.symm.trans hq)
      rcases hpending index hpend with hdoneNow | hpend'
      · exact .inl hdoneNow
      · exact .inr ⟨r', hr', hpend'⟩

theorem Invariant.move (hsteady : Steady done) (h : s.Invariant py settings stream owed done)
    (hr : s.streamer = some r) (hstore : r'.dedupStore = r.dedupStore)
    (hphase : s.PhaseSettled py stream owed done r')
    (hpending : ∀ i, Pending r i → done s i ∨ Pending r' i) :
    { s with streamer := some r' }.Invariant py settings stream owed done := by
  have hdone := hsteady s { s with streamer := some r' } rfl rfl rfl rfl
  refine h.keep hr rfl rfl hstore hdone (fun _ hc => .inl hc) (phaseSettled_congr hdone hphase) ?_
  intro i hpend
  exact (hpending i hpend).imp_left (hdone i)

theorem Invariant.ends (h : s.Invariant py settings stream owed done)
    (hnone : s.NoneTaken py stream done) (hr' : t.streamer = none) (hredis : t.redis = s.redis)
    (hdone : ∀ i, done s i → done t i)
    (hcheckpoint : ∀ cursor ∈ t.checkpoint,
      cursor ∈ s.checkpoint ∨ s.Covered stream owed done cursor) :
    t.Invariant py settings stream owed done where
  checkpoint cursor hcursor := by
    rcases hcheckpoint cursor hcursor with hold | hcovered
    · exact covered_congr hdone (h.checkpoint cursor hold)
    · exact covered_congr hdone hcovered
  default := covered_congr hdone h.default
  phase q hq := by simp [hr'] at hq
  registered index trade htrade hknown := by
    have hexists : ∃ t, server.Exists s.redis (DEDUP_REDIS_PREFIX ++ streamKey py trade) t := by
      rwa [Registered, hr', hredis] at hknown
    left
    apply hdone
    by_contra hmissing
    obtain ⟨q, hq, hpend⟩ :=
      (h.registered index trade htrade (knownTo_of_exists hexists)).resolve_left hmissing
    exact hnone q hq index trade hpend htrade hmissing hexists

end Keeping

section Labels

variable {s t : System server} {r : Streamer}

theorem invariant_start (hsteady : Steady done) (h : s.Invariant py settings stream owed done)
    (hr : s.streamer = none) {now : ℚ} {redisConnected : Bool} {cursor : Option String}
    (hcursor : ∀ token ∈ cursor, s.Covered stream owed done token)
    (hstep : s.start py settings now redisConnected cursor = some t) :
    t.Invariant py settings stream owed done := by
  obtain ⟨token, htoken, ht⟩ := Option.map_eq_some_iff.mp hstep
  have hcovered := covered_startCursor h hcursor htoken
  have hdone : ∀ i, done s i → done t i := by
    subst ht
    exact hsteady _ _ rfl rfl rfl rfl
  subst ht
  constructor
  · intro c hc
    exact covered_congr hdone (h.checkpoint c hc)
  · exact covered_congr hdone h.default
  · rintro q ⟨⟩
    exact covered_congr hdone hcovered
  · intro index trade htrade hknown
    have hexists : s.Registered (streamKey py trade) := by
      rw [Registered, hr]
      by_cases hdedup : settings.ingestionDedupEnabled
      · rw [Registered] at hknown
        simp only [hdedup, if_true, Option.bind_some, KnownTo] at hknown
        exact IdempotencyKeyStore.exists_of_knows_init hknown
      · simpa [Registered, hdedup] using hknown
    rcases h.registered index trade htrade hexists with hbefore | ⟨q, hq, -⟩
    · exact .inl (hdone index hbefore)
    · simp [hr] at hq

theorem invariant_connect (hsteady : Steady done) (h : s.Invariant py settings stream owed done)
    (hr : s.streamer = some r) (hphase : r.phase = .connecting) {head : ℕ}
    (hnow : r.cursor = "now" → s.Settled owed done head) :
    { s with
      streamer := some
        { r with
          phase := .receiving
            (if r.cursor = "now" then head else stream.covered r.cursor) } }.Invariant
      py settings stream owed done := by
  have hcovered : s.Covered stream owed done r.cursor := by
    have hsettled := h.phase r hr
    rwa [PhaseSettled, hphase] at hsettled
  refine h.move hsteady hr rfl ⟨?_, hcovered⟩ ?_
  · by_cases hcursor : r.cursor = "now"
    · rw [if_pos hcursor]
      exact hnow hcursor
    · rw [if_neg hcursor]
      exact hcovered hcursor
  · simp [Pending, hphase]

theorem covered_cursor (h : s.Invariant py settings stream owed done) (hr : s.streamer = some r)
    (hphase : r.phase = .connecting ∨ ∃ n, r.phase = .receiving n) :
    s.Covered stream owed done r.cursor := by
  have hsettled := h.phase r hr
  rcases hphase with hphase | ⟨n, hphase⟩
  · rwa [PhaseSettled, hphase] at hsettled
  · rw [PhaseSettled, hphase] at hsettled
    exact hsettled.2

theorem invariant_receive (hsteady : Steady done)
    (hskipped : ∀ index event, stream.events[index]? = some event → event.payload = .skipped →
      ¬ owed index)
    (h : s.Invariant py settings stream owed done) (hr : s.streamer = some r) {index : ℕ}
    (hphase : r.phase = .receiving index) (hstep : s.receive stream r index = some t) :
    t.Invariant py settings stream owed done := by
  obtain ⟨hsettled, hcovered⟩ : s.Settled owed done index ∧
      s.Covered stream owed done r.cursor := by
    have hsettled := h.phase r hr
    rwa [PhaseSettled, hphase] at hsettled
  have hpending : ∀ i, ¬ Pending r i := by simp [Pending, hphase]
  have hmove : ∀ phase, s.PhaseSettled py stream owed done { r with phase := phase } →
      { s with streamer := some { r with phase := phase } }.Invariant py settings stream owed
        done :=
    fun phase hnext => h.move hsteady hr rfl hnext fun i hpend => absurd hpend (hpending i)
  cases hevent : stream.events[index]? with
  | none => simp [receive, hevent] at hstep
  | some event =>
    obtain ⟨id, token, payload⟩ := event
    cases payload with
    | skipped =>
      simp only [receive, hevent, Option.some.injEq] at hstep
      subst hstep
      apply hmove
      refine ⟨settled_succ hsettled ?_, hcovered⟩
      intro howed
      exact absurd howed (hskipped index _ hevent rfl)
    | unparsable =>
      simp only [receive, hevent, Option.some.injEq] at hstep
      subst hstep
      exact hmove _ ⟨hsettled, hcovered⟩
    | trade trade =>
      simp only [receive, hevent, Option.some.injEq] at hstep
      subst hstep
      exact hmove _ ⟨hsettled, hcovered⟩

theorem invariant_check (hsteady : Steady done) (hkeys : DistinctKeys py stream)
    (h : s.Invariant py settings stream owed done) (hr : s.streamer = some r) {index : ℕ}
    (hphase : r.phase = .received index) {readings : Readings}
    (hharmless : ¬ done s index → (stream.trade? index = none → ¬ owed index) ∧
      ∀ trade store, stream.trade? index = some trade → store ∈ r.dedupStore →
        ¬ store.tooOld (some trade.ledgerCloseTime) readings) :
    (s.check py stream r index readings).Invariant py settings stream owed done := by
  obtain ⟨hsettled, hcovered⟩ : s.Settled owed done index ∧
      s.Covered stream owed done r.cursor := by
    have hsettled := h.phase r hr
    rwa [PhaseSettled, hphase] at hsettled
  have hregistered : ∀ i ti, stream.trade? i = some ti →
      KnownTo r.dedupStore s.redis (streamKey py ti) → done s i := by
    intro i ti hti hknown
    have hknown' : s.Registered (streamKey py ti) := by
      rwa [Registered, hr, Option.bind_some]
    rcases h.registered i ti hti hknown' with hdone | ⟨q, hq, hpend⟩
    · exact hdone
    · obtain rfl : r = q := Option.some.inj (hr.symm.trans hq)
      simp [Pending, hphase] at hpend
  rw [check]
  cases htrade : stream.trade? index with
  | none =>
    refine h.move hsteady hr rfl ⟨settled_succ hsettled ?_, hcovered⟩ ?_
    · intro howed
      by_contra hmissing
      exact (hharmless hmissing).1 htrade howed
    · simp [Pending, hphase]
  | some trade =>
    obtain ⟨honly, hskip⟩ := @checkTradeDedup_spec server py r.dedupStore s.redis trade readings
    dsimp only
    generalize checkTradeDedup py r.dedupStore s.redis trade readings = out at honly hskip ⊢
    obtain ⟨store', redis', skip⟩ := out
    have hdone := hsteady s
      { s with
        redis := redis'
        streamer := some { r with dedupStore := store', phase := .checked index skip } }
      rfl rfl rfl rfl
    have hskipped : skip → done s index := by
      intro htrue
      by_contra hmissing
      apply hmissing
      apply hregistered index trade htrade
      exact hskip (fun store hstore => (hharmless hmissing).2 trade store htrade hstore) htrue
    constructor
    · intro c hc
      exact covered_congr hdone (h.checkpoint c hc)
    · exact covered_congr hdone h.default
    · rintro q ⟨⟩
      exact ⟨settled_congr hdone hsettled, covered_congr hdone hcovered,
        fun htrue => hdone index (hskipped htrue)⟩
    · intro i ti hti hknown
      rcases honly _ hknown with hbefore | hkey
      · exact .inl (hdone i (hregistered i ti hti hbefore))
      · obtain rfl := hkeys i index ti trade hti htrade hkey
        cases skip with
        | true => exact .inl (hdone i (hskipped rfl))
        | false => exact .inr ⟨_, rfl, .inl rfl⟩

theorem recordProcessedEvent_spec {index : ℕ} {now : ℚ} {written : Bool}
    {out : System server × Streamer} (hcovered : s.Covered stream owed done r.cursor)
    (hout : s.recordProcessedEvent py settings r (stream.events[index]?.bind Event.token) now
      written = out) :
    out.1.redis = s.redis ∧ out.1.queue = s.queue ∧ out.1.enqueued = s.enqueued ∧
      out.1.discarded = s.discarded ∧ out.1.handled = s.handled ∧
      out.2.dedupStore = r.dedupStore ∧
      (s.Covered stream owed done out.2.cursor ∨ validToken py stream index = some out.2.cursor) ∧
      (∀ cursor ∈ out.1.checkpoint, cursor ∈ s.checkpoint ∨
        validToken py stream index = some cursor ∧ written ∧
          settings.flushPolicy.shouldFlush (r.eventsSinceFlush + 1) r.lastFlushTime now) := by
  rw [recordProcessedEvent] at hout
  cases htoken : (stream.events[index]?.bind Event.token).filter (validateCursor py) with
  | none =>
    simp only [htoken] at hout
    subst hout
    exact ⟨rfl, rfl, rfl, rfl, rfl, rfl, .inl hcovered, fun _ hc => .inl hc⟩
  | some cursor =>
    simp only [htoken] at hout
    by_cases hflush :
        settings.flushPolicy.shouldFlush (r.eventsSinceFlush + 1) r.lastFlushTime now
    · rw [if_pos hflush] at hout
      rcases save_cases s cursor written with heq | ⟨hwritten, heq⟩
      · rw [heq] at hout
        subst hout
        exact ⟨rfl, rfl, rfl, rfl, rfl, rfl, .inr htoken, fun _ hc => .inl hc⟩
      · rw [heq] at hout
        subst hout
        refine ⟨rfl, rfl, rfl, rfl, rfl, rfl, .inr htoken, ?_⟩
        rintro c ⟨⟩
        exact .inr ⟨htoken, hwritten, hflush⟩
    · rw [if_neg hflush] at hout
      subst hout
      exact ⟨rfl, rfl, rfl, rfl, rfl, rfl, .inr htoken, fun _ hc => .inl hc⟩

theorem invariant_record (hsteady : Steady done) (h : s.Invariant py settings stream owed done)
    (hr : s.streamer = some r) {index : ℕ} {shouldSkip : Bool}
    (hphase : r.phase = .checked index shouldSkip) {now : ℚ} {written : Bool}
    (hharmless : shouldSkip = false → ¬ done s index → (validToken py stream index).isSome →
      written →
      ¬ settings.flushPolicy.shouldFlush (r.eventsSinceFlush + 1) r.lastFlushTime now) :
    (s.record py settings stream r index shouldSkip now written).Invariant
      py settings stream owed done := by
  obtain ⟨hsettled, hcovered, hskip⟩ : s.Settled owed done index ∧
      s.Covered stream owed done r.cursor ∧ (shouldSkip → done s index) := by
    have hsettled := h.phase r hr
    rwa [PhaseSettled, hphase] at hsettled
  rw [record]
  generalize hout : s.recordProcessedEvent py settings r (stream.events[index]?.bind Event.token)
    now written = out
  obtain ⟨hredis, hqueue, henqueued, hdiscarded, hhandled, hstore, hcursor, hcheckpoint⟩ :=
    recordProcessedEvent_spec hcovered hout
  obtain ⟨s', r'⟩ := out
  have hdone := hsteady s
    { s' with
      streamer := some
        { r' with
          phase := if shouldSkip then .receiving (index + 1) else .enqueuing index } }
    hqueue henqueued hdiscarded hhandled
  have hindex : done s index → ∀ cursor, validToken py stream index = some cursor →
      s.Covered stream owed done cursor :=
    fun hnow cursor htoken => covered_validToken htoken (settled_succ hsettled fun _ => hnow)
  refine h.keep hr rfl hredis hstore hdone ?_ ?_ ?_
  · intro cursor hc
    rcases hcheckpoint cursor hc with hold | ⟨htoken, hwritten, hflush⟩
    · exact .inl hold
    · right
      apply covered_congr hdone
      apply hindex _ cursor htoken
      cases shouldSkip with
      | true => exact hskip rfl
      | false =>
        by_contra hmissing
        exact hharmless rfl hmissing (by rw [htoken]; rfl) hwritten hflush
  · cases shouldSkip with
    | true =>
      have hnow := hskip rfl
      refine ⟨settled_congr hdone (settled_succ hsettled fun _ => hnow), covered_congr hdone ?_⟩
      rcases hcursor with hcovered' | htoken
      · exact hcovered'
      · exact hindex hnow _ htoken
    | false =>
      refine ⟨settled_congr hdone hsettled, ?_⟩
      rcases hcursor with hcovered' | htoken
      · exact .inl (covered_congr hdone hcovered')
      · exact .inr htoken
  · intro i hpend
    rcases hpend with hchecked | henqueuing
    · obtain ⟨rfl, rfl⟩ := Phase.checked.inj (hphase.symm.trans hchecked)
      exact .inr (.inr rfl)
    · simp [hphase] at henqueuing

theorem invariant_enqueue (h : s.Invariant py settings stream owed done)
    (hr : s.streamer = some r) {index : ℕ} (hphase : r.phase = .enqueuing index)
    (hstep : s.enqueue r index = some t) (hdone : ∀ i, done s i → done t i)
    (hindex : done t index) : t.Invariant py settings stream owed done := by
  obtain ⟨hsettled, hcursor⟩ : s.Settled owed done index ∧
      (s.Covered stream owed done r.cursor ∨ validToken py stream index = some r.cursor) := by
    have hsettled := h.phase r hr
    rwa [PhaseSettled, hphase] at hsettled
  have hnext : t.Settled owed done (index + 1) :=
    settled_succ (settled_congr hdone hsettled) fun _ => hindex
  have hcovered : t.Covered stream owed done r.cursor := by
    rcases hcursor with hcovered | htoken
    · exact covered_congr hdone hcovered
    · exact covered_validToken htoken hnext
  have hpending : ∀ i, Pending r i → done t i := by
    intro i hpend
    rcases hpend with hchecked | henqueuing
    · simp [hphase] at hchecked
    · obtain rfl := Phase.enqueuing.inj (hphase.symm.trans henqueuing)
      exact hindex
  obtain ⟨⟨queue', accepted⟩, hput, ht⟩ := Option.map_eq_some_iff.mp hstep
  cases accepted with
  | true =>
    rw [if_pos rfl] at ht
    subst ht
    exact h.keep hr rfl rfl rfl hdone (fun _ hc => .inl hc) ⟨hnext, hcovered⟩
      fun i hpend => .inl (hpending i hpend)
  | false =>
    rw [if_neg Bool.false_ne_true] at ht
    subst ht
    exact h.keep hr rfl rfl rfl hdone (fun _ hc => .inl hc) ⟨hnext, hcovered⟩
      fun i hpend => .inl (hpending i hpend)

theorem invariant_ended (hsteady : Steady done) (h : s.Invariant py settings stream owed done)
    (hnone : s.NoneTaken py stream done) {written : Bool}
    (hcovered : r.eventsSinceFlush ≠ 0 → written → s.Covered stream owed done r.cursor) :
    (s.ended py r written).Invariant py settings stream owed done := by
  rw [ended, flushCheckpoint]
  by_cases hevents : r.eventsSinceFlush ≠ 0
  · rw [if_pos hevents]
    rcases save_cases s r.cursor written with heq | ⟨hwritten, heq⟩
    · rw [heq]
      exact h.ends hnone rfl rfl (hsteady s _ rfl rfl rfl rfl) fun _ hc => .inl hc
    · rw [heq]
      refine h.ends hnone rfl rfl (hsteady s _ rfl rfl rfl rfl) ?_
      rintro cursor ⟨⟩
      exact .inr (hcovered hevents hwritten)
  · rw [if_neg hevents]
    exact h.ends hnone rfl rfl (hsteady s _ rfl rfl rfl rfl) fun _ hc => .inl hc

theorem noneTaken_of_phase (hr : s.streamer = some r) (hphase : ∀ index, ¬ Pending r index) :
    s.NoneTaken py stream done := by
  intro q hq index trade hpend
  obtain rfl : r = q := Option.some.inj (hr.symm.trans hq)
  exact absurd hpend (hphase index)

theorem invariant_mark (hsteady : Steady done) (h : s.Invariant py settings stream owed done)
    (hr : s.streamer = some r) {index : ℕ} (hphase : r.phase = .accepted index) (written : Bool) :
    (s.mark py r index written).Invariant py settings stream owed done := by
  obtain ⟨hsettled, hcovered⟩ : s.Settled owed done (index + 1) ∧
      s.Covered stream owed done r.cursor := by
    have hsettled := h.phase r hr
    rwa [PhaseSettled, hphase] at hsettled
  have hpending : ∀ i, ¬ Pending r i := by simp [Pending, hphase]
  rw [mark]
  by_cases hdedup : r.dedupStore.isSome
  · rw [if_pos hdedup]
    exact invariant_ended hsteady h (noneTaken_of_phase hr hpending) fun _ _ => hcovered
  · rw [if_neg hdedup]
    exact h.move hsteady hr rfl ⟨hsettled, hcovered⟩ fun i hpend => absurd hpend (hpending i)

theorem not_pending (hphase : r.phase = .connecting ∨ ∃ n, r.phase = .receiving n) (i : ℕ) :
    ¬ Pending r i := by
  rcases hphase with hphase | ⟨n, hphase⟩
  · simp [Pending, hphase]
  · simp [Pending, hphase]

theorem invariant_lose (hsteady : Steady done) (h : s.Invariant py settings stream owed done)
    (hr : s.streamer = some r) (hphase : r.phase = .connecting ∨ ∃ n, r.phase = .receiving n) :
    { s with streamer := some { r with phase := .connecting } }.Invariant
      py settings stream owed done := by
  have hcovered := covered_cursor h hr hphase
  exact h.move hsteady hr rfl hcovered fun i hpend => absurd hpend (not_pending hphase i)

theorem invariant_reject (hsteady : Steady done) (h : s.Invariant py settings stream owed done)
    (hr : s.streamer = some r) (hphase : r.phase = .connecting ∨ ∃ n, r.phase = .receiving n)
    (deleted : Bool) :
    { s with
      checkpoint := if deleted then none else s.checkpoint
      streamer := some { r with cursor := "now", phase := .connecting } }.Invariant
      py settings stream owed done := by
  refine h.keep hr rfl rfl rfl (hsteady s _ rfl rfl rfl rfl) ?_ (fun hne => absurd rfl hne)
    fun i hpend => absurd hpend (not_pending hphase i)
  intro cursor hc
  left
  cases deleted with
  | true => simp at hc
  | false => exact hc

/-- The end of `run` between the check of an event and its place in the queue. -/
theorem invariant_fail (hsteady : Steady done) (h : s.Invariant py settings stream owed done)
    (hr : s.streamer = some r) {written : Bool} (hnone : s.NoneTaken py stream done)
    (hflush : ∀ index, r.phase = .enqueuing index → ¬ done s index →
      (validToken py stream index).isSome → written → r.eventsSinceFlush = 0) :
    (s.ended py r written).Invariant py settings stream owed done := by
  apply invariant_ended hsteady h hnone
  intro hevents hwritten
  have hsettled := h.phase r hr
  cases hphase : r.phase with
  | connecting =>
    rwa [PhaseSettled, hphase] at hsettled
  | receiving n | received n | accepted n =>
    rw [PhaseSettled, hphase] at hsettled
    exact hsettled.2
  | checked index shouldSkip =>
    rw [PhaseSettled, hphase] at hsettled
    exact hsettled.2.1
  | enqueuing index =>
    rw [PhaseSettled, hphase] at hsettled
    rcases hsettled.2 with hcovered | htoken
    · exact hcovered
    · apply covered_validToken htoken (settled_succ hsettled.1 _)
      intro _
      by_contra hmissing
      exact hevents (hflush index hphase hmissing (by rw [htoken]; rfl) hwritten)

theorem invariant_crash (h : s.Invariant py settings stream owed done)
    (hnone : s.NoneTaken py stream done) (ht : s.next py settings stream .crash = some t)
    (hundone : ∀ i, done s i → ¬ done t i →
      (∀ cursor, cursor ∈ s.checkpoint ∨ cursor = settings.horizonDefaultCursor →
        cursor ≠ "now" → stream.covered cursor ≤ i) ∧
      ∀ trade, stream.trade? i = some trade →
        ¬ ∃ t, server.Exists s.redis (DEDUP_REDIS_PREFIX ++ streamKey py trade) t) :
    t.Invariant py settings stream owed done := by
  obtain rfl : { s with streamer := none, queue := s.queue.empty } = t := Option.some.inj ht
  have hcovered : ∀ cursor, cursor ∈ s.checkpoint ∨ cursor = settings.horizonDefaultCursor →
      s.Covered stream owed done cursor →
      { s with streamer := none, queue := s.queue.empty }.Covered stream owed done cursor := by
    intro cursor hcursor hbefore hnow index hlt howed
    by_contra hmissing
    have hle := (hundone index (hbefore hnow index hlt howed) hmissing).1 cursor hcursor hnow
    exact absurd hlt (not_lt.mpr hle)
  constructor
  · intro cursor hcursor
    exact hcovered cursor (.inl hcursor) (h.checkpoint cursor hcursor)
  · exact hcovered _ (.inr rfl) h.default
  · rintro q ⟨⟩
  · intro index trade htrade hexists
    left
    by_contra hmissing
    by_cases hdone : done s index
    · exact (hundone index hdone hmissing).2 trade htrade hexists
    · obtain ⟨q, hq, hpend⟩ :=
        (h.registered index trade htrade (knownTo_of_exists hexists)).resolve_left hdone
      exact hnone q hq index trade hpend htrade hdone hexists

theorem invariant_consume (h : s.Invariant py settings stream owed done)
    (hstep : s.next py settings stream .consume = some t) (hdone : ∀ i, done s i → done t i) :
    t.Invariant py settings stream owed done := by
  obtain ⟨out, -, ht⟩ := Option.map_eq_some_iff.mp hstep
  subst ht
  constructor
  · exact fun cursor hcursor => covered_congr hdone (h.checkpoint cursor hcursor)
  · exact covered_congr hdone h.default
  · exact fun r hr => phaseSettled_congr hdone (h.phase r hr)
  · intro index trade htrade hknown
    exact (h.registered index trade htrade hknown).imp_left (hdone index)

theorem invariant_stepStreamer {l : Label} (hsteady : Steady done)
    (hskipped : ∀ index event, stream.events[index]? = some event → event.payload = .skipped →
      ¬ owed index)
    (hkeys : DistinctKeys py stream) (h : s.Invariant py settings stream owed done)
    (hr : s.streamer = some r) (hharmless : s.Harmless py settings stream owed done l)
    (hstep : s.stepStreamer py settings stream r l = some t)
    (hqueue : l = .enqueue → (∀ i, done s i → done t i) ∧
      ∀ index, r.phase = .enqueuing index → done t index) :
    t.Invariant py settings stream owed done := by
  cases l with
  | connect head =>
    cases hphase : r.phase with
    | connecting =>
      simp only [stepStreamer, hphase, Option.some.injEq] at hstep
      subst hstep
      exact invariant_connect hsteady h hr hphase (hharmless r hr)
    | _ => simp [stepStreamer, hphase] at hstep
  | receive =>
    cases hphase : r.phase with
    | receiving index =>
      by_cases hrunning : r.running
      · simp only [stepStreamer, hphase, if_pos hrunning] at hstep
        exact invariant_receive hsteady hskipped h hr hphase hstep
      · simp [stepStreamer, hphase, hrunning] at hstep
    | _ => simp [stepStreamer, hphase] at hstep
  | check readings =>
    cases hphase : r.phase with
    | received index =>
      simp only [stepStreamer, hphase, Option.some.injEq] at hstep
      subst hstep
      exact invariant_check hsteady hkeys h hr hphase (hharmless r hr index hphase)
    | _ => simp [stepStreamer, hphase] at hstep
  | record now written =>
    cases hphase : r.phase with
    | checked index shouldSkip =>
      simp only [stepStreamer, hphase, Option.some.injEq] at hstep
      subst hstep
      apply invariant_record hsteady h hr hphase
      rintro rfl hmissing htoken hwritten
      exact hharmless r hr index hphase hmissing htoken hwritten
    | _ => simp [stepStreamer, hphase] at hstep
  | enqueue =>
    cases hphase : r.phase with
    | enqueuing index =>
      simp only [stepStreamer, hphase] at hstep
      obtain ⟨hdone, hindex⟩ := hqueue rfl
      exact invariant_enqueue h hr hphase hstep hdone (hindex index hphase)
    | _ => simp [stepStreamer, hphase] at hstep
  | mark written =>
    cases hphase : r.phase with
    | accepted index =>
      simp only [stepStreamer, hphase, Option.some.injEq] at hstep
      subst hstep
      exact invariant_mark hsteady h hr hphase written
    | _ => simp [stepStreamer, hphase] at hstep
  | lose =>
    cases hphase : r.phase with
    | connecting =>
      simp only [stepStreamer, hphase, Option.some.injEq] at hstep
      subst hstep
      exact invariant_lose hsteady h hr (.inl hphase)
    | receiving index =>
      simp only [stepStreamer, hphase, Option.some.injEq] at hstep
      subst hstep
      exact invariant_lose hsteady h hr (.inr ⟨index, hphase⟩)
    | _ => simp [stepStreamer, hphase] at hstep
  | reject deleted =>
    have hcursor : r.cursor ≠ "now" := by
      intro hcursor
      cases hphase : r.phase with
      | _ => simp [stepStreamer, hphase, hcursor] at hstep
    cases hphase : r.phase with
    | connecting =>
      simp only [stepStreamer, hphase, if_neg hcursor, Option.some.injEq] at hstep
      subst hstep
      exact invariant_reject hsteady h hr (.inl hphase) deleted
    | receiving index =>
      simp only [stepStreamer, hphase, if_neg hcursor, Option.some.injEq] at hstep
      subst hstep
      exact invariant_reject hsteady h hr (.inr ⟨index, hphase⟩) deleted
    | _ => simp [stepStreamer, hphase] at hstep
  | stop =>
    simp only [stepStreamer, Option.some.injEq] at hstep
    subst hstep
    exact h.move hsteady hr rfl (h.phase r hr) fun i hpend => .inr hpend
  | halt written =>
    have hhalt : (r.phase = .connecting ∨ ∃ n, r.phase = .receiving n) →
        (s.ended py r written).Invariant py settings stream owed done := by
      intro hphase
      exact invariant_ended hsteady h (noneTaken_of_phase hr (not_pending hphase))
        fun _ _ => covered_cursor h hr hphase
    by_cases hrunning : r.running
    · cases hphase : r.phase with
      | _ => simp [stepStreamer, hphase, hrunning] at hstep
    · cases hphase : r.phase with
      | connecting =>
        simp only [stepStreamer, hphase, if_neg hrunning, Option.some.injEq] at hstep
        subst hstep
        exact hhalt (.inl hphase)
      | receiving index =>
        simp only [stepStreamer, hphase, if_neg hrunning, Option.some.injEq] at hstep
        subst hstep
        exact hhalt (.inr ⟨index, hphase⟩)
      | _ => simp [stepStreamer, hphase] at hstep
  | fail written =>
    simp only [stepStreamer, Option.some.injEq] at hstep
    subst hstep
    exact invariant_fail hsteady h hr hharmless.1 (hharmless.2 r hr)
  | _ => simp [stepStreamer] at hstep

/-- The step lemma but for a crash. -/
theorem invariant_next {l : Label} (hsteady : Steady done)
    (hskipped : ∀ index event, stream.events[index]? = some event → event.payload = .skipped →
      ¬ owed index)
    (hkeys : DistinctKeys py stream) (h : s.Invariant py settings stream owed done)
    (hharmless : s.Harmless py settings stream owed done l)
    (hstep : s.next py settings stream l = some t) (hl : l ≠ .crash)
    (hqueue : l = .enqueue ∨ l = .consume → ∀ i, done s i → done t i)
    (hput : ∀ r ∈ s.streamer, ∀ index, l = .enqueue → r.phase = .enqueuing index →
      done t index) : t.Invariant py settings stream owed done := by
  have hstreamer : (∀ now connected cursor, l ≠ .start now connected cursor) → l ≠ .consume →
      t.Invariant py settings stream owed done := by
    intro hstart hconsume
    cases hr : s.streamer with
    | none =>
      cases l with
      | start now connected cursor => exact absurd rfl (hstart now connected cursor)
      | crash => exact absurd rfl hl
      | consume => exact absurd rfl hconsume
      | _ => simp [next, hr] at hstep
    | some r =>
      have hstep' : s.stepStreamer py settings stream r l = some t := by
        cases l with
        | start now connected cursor => exact absurd rfl (hstart now connected cursor)
        | crash => exact absurd rfl hl
        | consume => exact absurd rfl hconsume
        | _ => simpa only [next, hr] using hstep
      apply invariant_stepStreamer hsteady hskipped hkeys h hr hharmless hstep'
      rintro rfl
      exact ⟨hqueue (.inl rfl), fun index hphase => hput r hr index rfl hphase⟩
  cases l with
  | start now connected cursor =>
    cases hr : s.streamer with
    | none =>
      simp only [next, hr] at hstep
      exact invariant_start hsteady h hr hharmless hstep
    | some r => simp [next, hr] at hstep
  | consume => exact invariant_consume h hstep (hqueue (.inr rfl))
  | _ => exact hstreamer (by simp) (by simp)

end Labels

/-! ## The checkpoint and the accepted events -/

def Accepted (s : System server) (index : ℕ) : Prop :=
  index ∈ s.enqueued ∨ index ∈ s.discarded

def IsEvent (stream : Stream) (index : ℕ) : Prop :=
  ∃ event, stream.events[index]? = some event ∧ event.payload ≠ .skipped

variable (py settings stream) in
def HarmlessStep (s : System server) (l : Label) (t : System server) : Prop :=
  s.next py settings stream l = some t ∧
    s.Harmless py settings stream (IsEvent stream) Accepted l

variable (py settings stream) in
/-- Before any streamer: whatever it resumes from stands before the stream, and no trade of the
stream is registered. -/
structure Fresh (s : System server) : Prop where
  streamer : s.streamer = none
  checkpoint : ∀ cursor ∈ s.checkpoint, cursor ≠ "now" → stream.covered cursor = 0
  default : settings.horizonDefaultCursor ≠ "now" →
    stream.covered settings.horizonDefaultCursor = 0
  unregistered : ∀ index trade, stream.trade? index = some trade →
    ¬ ∃ t, server.Exists s.redis (DEDUP_REDIS_PREFIX ++ streamKey py trade) t

theorem Fresh.invariant {s : System server} (h : s.Fresh py settings stream) :
    s.Invariant py settings stream owed done := by
  have hnone : ∀ cursor, (cursor ≠ "now" → stream.covered cursor = 0) →
      s.Covered stream owed done cursor := by
    intro cursor hcovered hnow index hlt
    rw [hcovered hnow] at hlt
    exact absurd hlt (Nat.not_lt_zero index)
  constructor
  · exact fun cursor hcursor => hnone cursor (h.checkpoint cursor hcursor)
  · exact hnone _ h.default
  · simp [h.streamer]
  · intro index trade htrade hknown
    rw [Registered, h.streamer] at hknown
    exact absurd hknown (h.unregistered index trade htrade)

theorem steady_accepted : Steady (Accepted : System server → ℕ → Prop) := by
  intro s t _ henqueued hdiscarded _ index h
  rwa [Accepted, henqueued, hdiscarded]

theorem accepted_enqueue {s t : System server} {r : Streamer} {index : ℕ}
    (h : s.enqueue r index = some t) :
    Accepted t index ∧ ∀ i, Accepted s i → Accepted t i := by
  obtain ⟨⟨queue', accepted⟩, -, ht⟩ := Option.map_eq_some_iff.mp h
  cases accepted with
  | true =>
    rw [if_pos rfl] at ht
    subst ht
    refine ⟨.inl (List.mem_append_right _ (List.mem_singleton.mpr rfl)), ?_⟩
    intro i hi
    exact hi.imp_left (List.mem_append_left _)
  | false =>
    rw [if_neg Bool.false_ne_true] at ht
    subst ht
    refine ⟨.inr (List.mem_append_right _ (List.mem_singleton.mpr rfl)), ?_⟩
    intro i hi
    exact hi.imp_right (List.mem_append_left _)

theorem enqueue_of_next {s t : System server} (h : s.next py settings stream .enqueue = some t) :
    ∃ r index, s.streamer = some r ∧ r.phase = .enqueuing index ∧ s.enqueue r index = some t := by
  cases hr : s.streamer with
  | none => simp [next, hr] at h
  | some r =>
    cases hphase : r.phase with
    | enqueuing index =>
      exact ⟨r, index, rfl, hphase, by simpa [next, hr, stepStreamer, hphase] using h⟩
    | _ => simp [next, hr, stepStreamer, hphase] at h

theorem invariant_accepted {s t : System server} {l : Label} (hkeys : DistinctKeys py stream)
    (h : s.Invariant py settings stream (IsEvent stream) Accepted)
    (hstep : HarmlessStep py settings stream s l t) :
    t.Invariant py settings stream (IsEvent stream) Accepted := by
  obtain ⟨hnext, hharmless⟩ := hstep
  by_cases hl : l = .crash
  · subst hl
    apply invariant_crash h hharmless hnext
    intro i hi hmissing
    obtain rfl : { s with streamer := none, queue := s.queue.empty } = t := Option.some.inj hnext
    exact absurd hi hmissing
  · apply invariant_next steady_accepted _ hkeys h hharmless hnext hl
    · rintro (rfl | rfl)
      · obtain ⟨r, index, -, -, henqueue⟩ := enqueue_of_next hnext
        exact (accepted_enqueue henqueue).2
      · obtain ⟨out, -, ht⟩ := Option.map_eq_some_iff.mp hnext
        subst ht
        exact fun i hi => hi
    · rintro r hr index rfl hphase
      obtain ⟨q, i, hq, hphase', henqueue⟩ := enqueue_of_next hnext
      obtain rfl : r = q := Option.some.inj ((Option.mem_def.mp hr).symm.trans hq)
      obtain rfl := Phase.enqueuing.inj (hphase.symm.trans hphase')
      exact (accepted_enqueue henqueue).1
    · rintro index event hevent hpayload ⟨event', hevent', hne⟩
      obtain rfl := Option.some.inj (hevent.symm.trans hevent')
      exact hne hpayload

/-- In every state that steps which meet the condition reach, each event at or before the saved
checkpoint was enqueued or turned away by the overflow policy. -/
theorem accepted_of_checkpoint {s t : System server} {ls : List Label}
    (hkeys : DistinctKeys py stream) (hfresh : s.Fresh py settings stream)
    (hrun : Run (HarmlessStep py settings stream) s ls t) {cursor : String}
    (hcheckpoint : t.checkpoint = some cursor) (hnow : cursor ≠ "now") (index : ℕ)
    (hindex : index < stream.covered cursor) (hevent : IsEvent stream index) :
    t.Accepted index := by
  have hinv : t.Invariant py settings stream (IsEvent stream) Accepted :=
    hrun.invariant (fun u l v hu hstep => invariant_accepted hkeys hu hstep) hfresh.invariant
  exact hinv.checkpoint cursor hcheckpoint hnow index hindex hevent

variable (settings stream) in
def clean (s : System server) : Label → Bool
  | .start _ _ cursor => cursor.isNone
  | .connect head => head = 0
  | .check readings =>
    s.streamer.all fun r =>
      match r.phase with
      | .received index =>
        match stream.trade? index with
        | none => false
        | some trade =>
          r.dedupStore.all fun store => !store.tooOld (some trade.ledgerCloseTime) readings
      | _ => true
  | .record now _ =>
    s.streamer.all fun r =>
      !settings.flushPolicy.shouldFlush (r.eventsSinceFlush + 1) r.lastFlushTime now
  | .fail _ => false
  | .crash => s.streamer.isNone
  | _ => true

theorem harmless_of_clean {s : System server} {l : Label} (h : s.clean settings stream l) :
    s.Harmless py settings stream owed done l := by
  cases l with
  | start now connected cursor =>
    intro token htoken
    simp [clean, Option.mem_def.mp htoken] at h
  | connect head =>
    intro r _ _ index hlt
    have hhead : head = 0 := by simpa [clean] using h
    exact absurd (hhead ▸ hlt) (Nat.not_lt_zero index)
  | check readings =>
    intro r hr index hphase _
    simp only [clean, Option.mem_def.mp hr, Option.all_some, hphase] at h
    cases htrade : stream.trade? index with
    | none => simp [htrade] at h
    | some trade =>
      refine ⟨by simp, ?_⟩
      rintro _ store ⟨⟩ hstore
      simpa [htrade, Option.mem_def.mp hstore] using h
  | record now written =>
    intro r hr index _ _ _ _
    simpa [clean, Option.mem_def.mp hr] using h
  | fail written => simp [clean] at h
  | crash =>
    intro r hr
    simp [clean, Option.mem_def.mp hr] at h
  | _ => trivial

variable (py settings stream) in
def cleanRun (s : System server) (ls : List Label) : Option (System server) :=
  ls.foldlM (fun s l => if s.clean settings stream l then s.next py settings stream l else none) s

theorem run_of_cleanRun {s t : System server} {ls : List Label}
    (h : s.cleanRun py settings stream ls = some t) :
    Run (HarmlessStep py settings stream) s ls t := by
  apply Run.mono _ (run_iff_foldlM.mpr h)
  rintro u l v ⟨hnext, hclean⟩
  exact ⟨hnext, harmless_of_clean hclean⟩

end System

end Steps

def defaultSettings : Settings where
  ingestionDedupEnabled := true
  idempotencyReplayWindowSeconds := 3600
  horizonDefaultCursor := "0-0"
  flushPolicy := ⟨100, 10, by decide, by decide⟩

def idle : System expiringKeys where
  redis := ([] : List (String × ℚ))
  checkpoint := none
  queue := ⟨1000, .dropOldest, [], 0, by decide, by decide⟩
  streamer := none
  enqueued := []
  discarded := []
  handled := []

namespace System

theorem idle_fresh : idle.Fresh asciiBuiltins defaultSettings loneStream where
  streamer := rfl
  checkpoint := by simp [idle]
  default _ := by decide
  unregistered := by
    rintro index trade - ⟨t, hexists⟩
    exact absurd hexists (by simp [expiringKeys, idle, existsAt])

/-- `run` ends with an event in the queue and saves its token. -/
theorem accepted_before_end :
    ∃ t, idle.cleanRun asciiBuiltins defaultSettings loneStream
      [.start 0 true none, .connect 0, .receive, .check (answeredAt 1001), .record 1 true,
        .enqueue, .mark true] = some t ∧ t.Accepted 0 := by
  have hends : ((idle.cleanRun asciiBuiltins defaultSettings loneStream
      [.start 0 true none, .connect 0, .receive, .check (answeredAt 1001), .record 1 true,
        .enqueue, .mark true]).map System.checkpoint) = some (some "100-1") := by
    decide +kernel
  obtain ⟨t, ht, hcheckpoint⟩ := Option.map_eq_some_iff.mp hends
  refine ⟨t, ht, ?_⟩
  apply accepted_of_checkpoint loneStream_distinctKeys idle_fresh (run_of_cleanRun ht) hcheckpoint
    (by decide) 0 (by decide)
  exact ⟨_, rfl, by decide⟩

/-- The flush policy saves the token of an event that is yet to be enqueued, and a crash then
leaves the event out. -/
theorem saved_before_enqueued :
    (([.start 0 true none, .connect 0, .receive, .check (answeredAt 1001), .record 10 true,
        .crash, .start 20 true none, .connect 0] : List Label).foldlM
      (System.next asciiBuiltins defaultSettings loneStream) idle).map
      (fun t => (t.checkpoint, t.streamer.map Streamer.phase, t.enqueued, t.discarded)) =
      some (some "100-1", some (.receiving 1), [], []) := by
  decide +kernel

end System

end HorizonStreamer
