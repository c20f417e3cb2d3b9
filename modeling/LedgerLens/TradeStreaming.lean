import LedgerLens.HorizonTrades
import LedgerLens.LabelledRuns

/-!
# Streaming trades to the scorer

The `stream` command of `cli.py` over `stream_trades_with_cursor` (`ingestion/horizon_streamer.py`)
and the unified checkpoint (`ingestion/stream_checkpoint.py`). A process reads a Horizon stream,
registers each trade at the shared Redis or in its own fallback, has it scored and checkpoints the
cursor. It may end anywhere, and the next one resumes from what is durable.
-/
namespace TradeStreaming

open EventDedup HorizonTrades LabelledRuns

structure Settings where
  ingestionDedupEnabled : Bool
  idempotencyReplayWindowSeconds : ℚ
  horizonDefaultCursor : String
  flushPolicy : FlushPolicy

/-- Where the generator and the loop over it stand. -/
inductive Phase where
  | connecting
  | receiving (next : ℕ)
  | yielded (index : ℕ) (eventCursor : String)
  | scored (index : ℕ) (eventCursor : String)
  | recorded (index : ℕ) (eventCursor : String)
  deriving DecidableEq, Repr

structure Process where
  dedupStore : Option IdempotencyKeyStore
  cursor : String
  lastCursor : String
  phase : Phase
  eventsSinceFlush : ℕ
  lastFlushTime : ℚ
  stopping : Bool

/-- `checkpoint` is the unified checkpoint and `legacy` the file from before it; `delivered` lists
the events whose trades were scored. -/
structure System (server : RedisServer) where
  redis : server.Data
  checkpoint : Option String
  legacy : Option String
  process : Option Process
  delivered : List ℕ

inductive Label where
  | start (now : ℚ) (redisConnected : Bool)
  | connect (head : ℕ)
  | receive (readings : Readings)
  | disconnect
  | reject
  | score
  | record
  | checkpoint (now : ℚ) (written : Bool)
  | signal (written : Bool)
  | finish (written : Bool)
  | crash
  deriving DecidableEq

section Steps

variable {server : RedisServer} (py : Builtins) (settings : Settings) (stream : Stream)

namespace System

/-- Without a unified checkpoint the legacy one is read. -/
def loadCursor (s : System server) : Option String :=
  match s.checkpoint with
  | some token => if validateCursor py token then some token else none
  | none => s.legacy.filter (validateCursor py)

def startCursor (s : System server) : String :=
  (s.loadCursor py).getD settings.horizonDefaultCursor

/-- A malformed cursor is not written, and a write may fail. -/
def flush (s : System server) (cursorToken : String) (written : Bool) : System server :=
  if validateCursor py cursorToken ∧ written then { s with checkpoint := some cursorToken } else s

def start (s : System server) (now : ℚ) (redisConnected : Bool) : System server :=
  { s with
    process := some
      { dedupStore :=
          if settings.ingestionDedupEnabled then
            some (.init settings.idempotencyReplayWindowSeconds none redisConnected)
          else
            none
        cursor := s.startCursor py settings
        lastCursor := s.startCursor py settings
        phase := .connecting
        eventsSinceFlush := 0
        lastFlushTime := now
        stopping := false } }

def receive (s : System server) (p : Process) (index : ℕ) (readings : Readings) :
    Option (System server) :=
  match stream.events[index]? with
  | none => none
  | some ⟨_, _, .skipped⟩ =>
    some { s with process := some { p with phase := .receiving (index + 1) } }
  | some ⟨_, _, .unparsable⟩ => some { s with process := some { p with phase := .connecting } }
  | some ⟨id, _, .trade trade⟩ =>
    let cursor := if id.getD "" = "" then p.cursor else id.getD ""
    let out := checkTradeDedup py p.dedupStore s.redis trade readings
    some
      { s with
        redis := out.2.1
        process := some
          { p with
            dedupStore := out.1
            cursor := cursor
            phase := if out.2.2 then .receiving (index + 1) else .yielded index cursor } }

/-- `on_trade_processed`, and the generator resumed: the store has no `mark_seen`, whose failure
the generator takes for one of the connection. -/
def processed (s : System server) (p : Process) (index : ℕ) (eventCursor : String) (now : ℚ)
    (written : Bool) : System server :=
  let phase := if p.dedupStore.isSome then Phase.connecting else .receiving (index + 1)
  if settings.flushPolicy.shouldFlush (p.eventsSinceFlush + 1) p.lastFlushTime now then
    { s.flush py eventCursor written with
      process := some { p with eventsSinceFlush := 0, lastFlushTime := now, phase := phase } }
  else
    { s with
      process := some { p with eventsSinceFlush := p.eventsSinceFlush + 1, phase := phase } }

def stepProcess (s : System server) (p : Process) : Label → Option (System server)
  | .start .. => none
  | .connect head =>
    match p.phase with
    | .connecting =>
      let next := if p.cursor = "now" then head else stream.covered p.cursor
      some { s with process := some { p with phase := .receiving next } }
    | _ => none
  | .receive readings =>
    match p.phase with
    | .receiving index => s.receive py stream p index readings
    | _ => none
  | .disconnect =>
    match p.phase with
    | .connecting | .receiving _ => some { s with process := some { p with phase := .connecting } }
    | _ => none
  | .reject =>
    match p.phase with
    | .connecting | .receiving _ =>
      if p.cursor = "now" then none
      else
        some
          { s with
            legacy := none
            process := some { p with cursor := "now", phase := .connecting } }
    | _ => none
  | .score =>
    match p.phase with
    | .yielded index eventCursor =>
      if p.stopping then none
      else
        some
          { s with
            process := some { p with phase := .scored index eventCursor }
            delivered := s.delivered ++ [index] }
    | _ => none
  | .record =>
    match p.phase with
    | .scored index eventCursor =>
      some
        { s with
          process := some { p with
            lastCursor := eventCursor, phase := .recorded index eventCursor } }
    | _ => none
  | .checkpoint now written =>
    match p.phase with
    | .recorded index eventCursor => some (s.processed py settings p index eventCursor now written)
    | _ => none
  | .signal written =>
    some { s.flush py p.lastCursor written with process := some { p with stopping := true } }
  | .finish written =>
    match p.phase with
    | .receiving _ => some { s.flush py p.lastCursor written with process := none }
    | .yielded .. =>
      if p.stopping then some { s.flush py p.lastCursor written with process := none } else none
    | _ => none
  | .crash => some { s with process := none }

def next (s : System server) (l : Label) : Option (System server) :=
  match s.process, l with
  | none, .start now redisConnected => some (s.start py settings now redisConnected)
  | none, _ => none
  | some p, l => s.stepProcess py settings stream p l

end System

namespace System

/-- The trades among the first events were scored. -/
def Settled (s : System server) (n : ℕ) : Prop :=
  ∀ index < n, (stream.trade? index).isSome → index ∈ s.delivered

/-- A stream resumed from the cursor passes over no trade but one that was scored. -/
def Covered (s : System server) (cursor : String) : Prop :=
  cursor ≠ "now" → s.Settled stream (stream.covered cursor)

def Registered (s : System server) (key : Key) : Prop :=
  KnownTo (s.process.bind Process.dedupStore) s.redis key

def PhaseSettled (s : System server) (p : Process) : Prop :=
  match p.phase with
  | .connecting => s.Covered stream p.cursor
  | .receiving next => s.Settled stream next ∧ s.Covered stream p.cursor
  | .yielded index eventCursor => eventCursor = p.cursor ∧ s.Settled stream index ∧
      (eventCursor ≠ "now" → ∀ j < stream.covered eventCursor, (stream.trade? j).isSome →
        j ∈ s.delivered ∨ j = index)
  | .scored index eventCursor | .recorded index eventCursor => eventCursor = p.cursor ∧
      s.Settled stream (index + 1) ∧ s.Covered stream eventCursor

structure Invariant (s : System server) : Prop where
  checkpoint : ∀ cursor ∈ s.checkpoint, s.Covered stream cursor
  legacy : ∀ cursor ∈ s.legacy, s.Covered stream cursor
  default : s.Covered stream settings.horizonDefaultCursor
  lastCursor : ∀ p ∈ s.process, s.Covered stream p.lastCursor
  phase : ∀ p ∈ s.process, s.PhaseSettled stream p
  registered : ∀ index trade, stream.trade? index = some trade →
    s.Registered (streamKey py trade) → index ∈ s.delivered ∨
      ∃ p ∈ s.process, ∃ eventCursor, p.phase = .yielded index eventCursor

/-- A process ends with no trade that Redis was given and the scorer never was. -/
def NoneTaken (s : System server) : Prop :=
  ∀ p ∈ s.process, ∀ index eventCursor trade, p.phase = .yielded index eventCursor →
    stream.trade? index = some trade → index ∉ s.delivered →
    ¬ ∃ t, server.Exists s.redis (DEDUP_REDIS_PREFIX ++ streamKey py trade) t

/-- The condition on one step: a stream opened at `now` leaves out scored trades only, no trade
that was not scored is read after its replay window, and no process ends between the registration
of a trade and its first delivery. -/
def Harmless (s : System server) : Label → Prop
  | .connect head => ∀ p ∈ s.process, p.cursor = "now" → s.Settled stream head
  | .receive readings => ∀ p ∈ s.process, ∀ index trade store, p.phase = .receiving index →
      stream.trade? index = some trade → store ∈ p.dedupStore → index ∉ s.delivered →
      ¬ store.tooOld (some trade.ledgerCloseTime) readings
  | .finish _ | .crash => s.NoneTaken py stream
  | _ => True

/-- Before any process: whatever a process resumes from stands before the stream, and no trade of
the stream is registered. -/
structure Fresh (s : System server) : Prop where
  process : s.process = none
  checkpoint : ∀ cursor ∈ s.checkpoint, cursor ≠ "now" → stream.covered cursor = 0
  legacy : ∀ cursor ∈ s.legacy, cursor ≠ "now" → stream.covered cursor = 0
  default : settings.horizonDefaultCursor ≠ "now" →
    stream.covered settings.horizonDefaultCursor = 0
  unregistered : ∀ index trade, stream.trade? index = some trade →
    ¬ ∃ t, server.Exists s.redis (DEDUP_REDIS_PREFIX ++ streamKey py trade) t

def HarmlessStep (s : System server) (l : Label) (t : System server) : Prop :=
  s.next py settings stream l = some t ∧ s.Harmless py stream l

/-- The next process does not receive the event again, or the running one has gone past it. -/
def Passed (s : System server) (index : ℕ) : Prop :=
  (∃ cursor ∈ s.checkpoint, cursor ≠ "now" ∧ index < stream.covered cursor) ∨
    ∃ p ∈ s.process, ∃ next, p.phase = .receiving next ∧ index < next

variable {py settings stream}

theorem settled_succ {s : System server} {n : ℕ} (h : s.Settled stream n)
    (hn : (stream.trade? n).isSome → n ∈ s.delivered) : s.Settled stream (n + 1) := by
  intro index hlt htrade
  rcases Nat.lt_succ_iff_lt_or_eq.mp hlt with hlt | rfl
  · exact h index hlt htrade
  · exact hn htrade

theorem covered_congr {s t : System server} (h : ∀ index ∈ s.delivered, index ∈ t.delivered)
    {cursor : String} (hs : s.Covered stream cursor) : t.Covered stream cursor :=
  fun hnow index hlt htrade => h index (hs hnow index hlt htrade)

theorem flush_cases (s : System server) (cursorToken : String) (written : Bool) :
    s.flush py cursorToken written = s ∨
      s.flush py cursorToken written = { s with checkpoint := some cursorToken } := by
  rw [flush]
  by_cases hwritten : validateCursor py cursorToken ∧ written
  · exact .inr (if_pos hwritten)
  · exact .inl (if_neg hwritten)

theorem covered_startCursor {s : System server} (h : s.Invariant py settings stream) :
    s.Covered stream (s.startCursor py settings) := by
  rw [startCursor]
  cases hload : s.loadCursor py with
  | none => exact h.default
  | some token =>
    rw [loadCursor] at hload
    cases hcheckpoint : s.checkpoint with
    | none =>
      rw [hcheckpoint] at hload
      exact h.legacy token (Option.filter_eq_some_iff.mp hload).1
    | some stored =>
      by_cases hvalid : validateCursor py stored
      · obtain rfl : stored = token := by simpa [hcheckpoint, hvalid] using hload
        exact h.checkpoint stored hcheckpoint
      · simp [hcheckpoint, hvalid] at hload

section Keeping

variable {s t : System server} {p p' : Process}

/-- A step of a process that registers nothing. -/
theorem Invariant.keep (h : s.Invariant py settings stream) (hp : s.process = some p)
    (hp' : t.process = some p') (hredis : t.redis = s.redis)
    (hstore : p'.dedupStore = p.dedupStore) (hdelivered : ∀ i ∈ s.delivered, i ∈ t.delivered)
    (hcheckpoint : ∀ cursor ∈ t.checkpoint, cursor ∈ s.checkpoint ∨ t.Covered stream cursor)
    (hlegacy : ∀ cursor ∈ t.legacy, cursor ∈ s.legacy) (hlast : t.Covered stream p'.lastCursor)
    (hphase : t.PhaseSettled stream p')
    (hyielded : ∀ i c, p.phase = .yielded i c → i ∈ t.delivered ∨ ∃ c', p'.phase = .yielded i c') :
    t.Invariant py settings stream where
  checkpoint cursor hcursor := by
    rcases hcheckpoint cursor hcursor with hold | hcovered
    · exact covered_congr hdelivered (h.checkpoint cursor hold)
    · exact hcovered
  legacy cursor hcursor := covered_congr hdelivered (h.legacy cursor (hlegacy cursor hcursor))
  default := covered_congr hdelivered h.default
  lastCursor q hq := by
    obtain rfl : p' = q := Option.some.inj (hp'.symm.trans hq)
    exact hlast
  phase q hq := by
    obtain rfl : p' = q := Option.some.inj (hp'.symm.trans hq)
    exact hphase
  registered index trade htrade hknown := by
    have hbefore : s.Registered (streamKey py trade) := by
      rw [Registered, hp', Option.bind_some, hstore, hredis] at hknown
      rwa [Registered, hp, Option.bind_some]
    rcases h.registered index trade htrade hbefore with hmem | ⟨q, hq, c, hyield⟩
    · exact .inl (hdelivered index hmem)
    · obtain rfl : p = q := Option.some.inj (hp.symm.trans hq)
      rcases hyielded index c hyield with hmem | ⟨c', hyield'⟩
      · exact .inl hmem
      · exact .inr ⟨p', hp', c', hyield'⟩

theorem Invariant.ended (h : s.Invariant py settings stream) (hnone : s.NoneTaken py stream)
    (hp' : t.process = none) (hredis : t.redis = s.redis) (hdelivered : t.delivered = s.delivered)
    (hcheckpoint : ∀ cursor ∈ t.checkpoint, cursor ∈ s.checkpoint ∨ t.Covered stream cursor)
    (hlegacy : t.legacy = s.legacy) : t.Invariant py settings stream where
  checkpoint cursor hcursor := by
    rcases hcheckpoint cursor hcursor with hold | hcovered
    · exact covered_congr (fun i hi => hdelivered ▸ hi) (h.checkpoint cursor hold)
    · exact hcovered
  legacy cursor hcursor :=
    covered_congr (fun i hi => hdelivered ▸ hi) (h.legacy cursor (hlegacy ▸ hcursor))
  default := covered_congr (fun i hi => hdelivered ▸ hi) h.default
  lastCursor q hq := by simp [hp'] at hq
  phase q hq := by simp [hp'] at hq
  registered index trade htrade hknown := by
    have hexists : ∃ t, server.Exists s.redis (DEDUP_REDIS_PREFIX ++ streamKey py trade) t := by
      rwa [Registered, hp', hredis] at hknown
    left
    rw [hdelivered]
    by_contra hmissing
    obtain ⟨q, hq, c, hyield⟩ :=
      (h.registered index trade htrade (knownTo_of_exists hexists)).resolve_left hmissing
    exact hnone q hq index c trade hyield htrade hmissing hexists

end Keeping

@[simp] theorem process_flush (s : System server) (cursorToken : String) (written : Bool) :
    (s.flush py cursorToken written).process = s.process := by
  rcases flush_cases s cursorToken written with heq | heq
  · rw [heq]
  · rw [heq]

theorem Invariant.flush {s : System server} (h : s.Invariant py settings stream)
    {cursorToken : String} (hcovered : s.Covered stream cursorToken) (written : Bool) :
    (s.flush py cursorToken written).Invariant py settings stream := by
  rcases flush_cases s cursorToken written with heq | heq
  · rwa [heq]
  · rw [heq]
    constructor
    · rintro cursor ⟨⟩
      exact hcovered
    · exact h.legacy
    · exact h.default
    · exact h.lastCursor
    · exact h.phase
    · exact h.registered

theorem noneTaken_flush {s : System server} (h : s.NoneTaken py stream) (cursorToken : String)
    (written : Bool) : (s.flush py cursorToken written).NoneTaken py stream := by
  rcases flush_cases s cursorToken written with heq | heq
  · rwa [heq]
  · rw [heq]
    exact h

theorem invariant_start {s : System server} (h : s.Invariant py settings stream)
    (hp : s.process = none) (now : ℚ) (redisConnected : Bool) :
    (s.start py settings now redisConnected).Invariant py settings stream where
  checkpoint := h.checkpoint
  legacy := h.legacy
  default := h.default
  lastCursor := by
    rintro p ⟨⟩
    have hcovered := covered_startCursor h
    exact hcovered
  phase := by
    rintro p ⟨⟩
    have hcovered := covered_startCursor h
    exact hcovered
  registered index trade htrade hknown := by
    have hexists : s.Registered (streamKey py trade) := by
      rw [Registered, hp]
      by_cases hdedup : settings.ingestionDedupEnabled
      · rw [start, Registered] at hknown
        simp only [hdedup, if_true, Option.bind_some, KnownTo] at hknown
        exact IdempotencyKeyStore.exists_of_knows_init hknown
      · simpa [start, Registered, hdedup] using hknown
    rcases h.registered index trade htrade hexists with hmem | ⟨q, hq, -⟩
    · exact .inl hmem
    · simp [hp] at hq

theorem covered_eventCursor {s : System server} {p : Process} {index : ℕ} {id token : Option String}
    {payload : Payload} (hevent : stream.events[index]? = some ⟨id, token, payload⟩)
    (hcovered : s.Covered stream p.cursor) (hsettled : s.Settled stream index)
    (hnow : (if id.getD "" = "" then p.cursor else id.getD "") ≠ "now") (j : ℕ)
    (hj : j < stream.covered (if id.getD "" = "" then p.cursor else id.getD ""))
    (htrade : (stream.trade? j).isSome) : j ∈ s.delivered ∨ j = index := by
  by_cases hid : id.getD "" = ""
  · rw [if_pos hid] at hnow hj
    exact .inl (hcovered hnow j hj htrade)
  · cases id with
    | none => exact absurd rfl hid
    | some cursor =>
      rw [if_neg hid] at hj
      have hcursor : stream.covered cursor = index + 1 :=
        stream.covered_id index _ cursor hevent rfl
      have hlt : j < index + 1 := hcursor ▸ hj
      rcases Nat.lt_succ_iff_lt_or_eq.mp hlt with hlt | rfl
      · exact .inl (hsettled j hlt htrade)
      · exact .inr rfl

theorem Invariant.delivered_of_known {s : System server} {p : Process} {index i : ℕ} {trade : Trade}
    (h : s.Invariant py settings stream) (hp : s.process = some p)
    (hphase : p.phase = .receiving index) (htrade : stream.trade? i = some trade)
    (hknown : KnownTo p.dedupStore s.redis (streamKey py trade)) : i ∈ s.delivered := by
  have hregistered : s.Registered (streamKey py trade) := by
    rwa [Registered, hp, Option.bind_some]
  rcases h.registered i trade htrade hregistered with hmem | ⟨q, hq, c, hyield⟩
  · exact hmem
  · obtain rfl : p = q := Option.some.inj (hp.symm.trans hq)
    simp [hphase] at hyield

theorem Invariant.checked {s : System server} {p p' : Process} {redis' : server.Data}
    (h : s.Invariant py settings stream) (hp : s.process = some p)
    (hlast : p'.lastCursor = p.lastCursor) (hphase : s.PhaseSettled stream p')
    (hregistered : ∀ i trade, stream.trade? i = some trade →
      KnownTo p'.dedupStore redis' (streamKey py trade) →
        i ∈ s.delivered ∨ ∃ eventCursor, p'.phase = .yielded i eventCursor) :
    { s with redis := redis', process := some p' }.Invariant py settings stream where
  checkpoint := h.checkpoint
  legacy := h.legacy
  default := h.default
  lastCursor := by
    rintro q ⟨⟩
    exact hlast ▸ h.lastCursor p hp
  phase := by
    rintro q ⟨⟩
    exact hphase
  registered i trade htrade hknown := by
    rcases hregistered i trade htrade hknown with hdelivered | hyielded
    · exact .inl hdelivered
    · exact .inr ⟨p', rfl, hyielded⟩

theorem invariant_receive {s t : System server} {p : Process} {index : ℕ} {readings : Readings}
    (hkeys : DistinctKeys py stream)
    (h : s.Invariant py settings stream) (hp : s.process = some p)
    (hphase : p.phase = .receiving index)
    (htimely : ∀ trade store, stream.trade? index = some trade → store ∈ p.dedupStore →
      index ∉ s.delivered → ¬ store.tooOld (some trade.ledgerCloseTime) readings)
    (hstep : s.receive py stream p index readings = some t) :
    t.Invariant py settings stream := by
  have hp₀ : s.Settled stream index ∧ s.Covered stream p.cursor := by
    have hsettled := h.phase p hp
    rwa [PhaseSettled, hphase] at hsettled
  rw [receive] at hstep
  cases hevent : stream.events[index]? with
  | none => simp [hevent] at hstep
  | some event =>
    obtain ⟨id, token, payload⟩ := event
    cases payload with
    | skipped =>
      have htrade : stream.trade? index = none := by rw [Stream.trade?, hevent]
      simp only [hevent, Option.some.injEq] at hstep
      subst hstep
      refine h.keep hp rfl rfl rfl (fun _ hi => hi) (fun _ hc => .inl hc) (fun _ hc => hc)
        (h.lastCursor p hp) ⟨settled_succ hp₀.1 ?_, hp₀.2⟩ ?_
      · simp [htrade]
      · simp [hphase]
    | unparsable =>
      simp only [hevent, Option.some.injEq] at hstep
      subst hstep
      refine h.keep hp rfl rfl rfl (fun _ hi => hi) (fun _ hc => .inl hc) (fun _ hc => hc)
        (h.lastCursor p hp) hp₀.2 ?_
      simp [hphase]
    | trade trade =>
      have htrade : stream.trade? index = some trade := by rw [Stream.trade?, hevent]
      simp only [hevent, Option.some.injEq] at hstep
      obtain ⟨honly, hskipped⟩ :=
        @checkTradeDedup_spec server py p.dedupStore s.redis trade readings
      have hcursor := covered_eventCursor hevent hp₀.2 hp₀.1
      generalize hout : checkTradeDedup py p.dedupStore s.redis trade readings = out at hstep
      rw [hout] at honly hskipped
      obtain ⟨store', redis', skip⟩ := out
      subst hstep
      cases skip with
      | true =>
        have hdelivered : index ∈ s.delivered := by
          by_contra hmissing
          apply hmissing
          apply h.delivered_of_known hp hphase htrade
          exact hskipped (fun store hstore => htimely trade store htrade hstore hmissing) rfl
        refine h.checked hp rfl ⟨settled_succ hp₀.1 fun _ => hdelivered, ?_⟩ ?_
        · intro hnow j hj hjtrade
          rcases hcursor hnow j hj hjtrade with hmem | rfl
          · exact hmem
          · exact hdelivered
        · intro i ti hti hknown
          left
          rcases honly _ hknown with hbefore | hkey
          · exact h.delivered_of_known hp hphase hti hbefore
          · exact hkeys i index ti trade hti htrade hkey ▸ hdelivered
      | false =>
        refine h.checked hp rfl ⟨rfl, hp₀.1, hcursor⟩ ?_
        intro i ti hti hknown
        rcases honly _ hknown with hbefore | hkey
        · exact .inl (h.delivered_of_known hp hphase hti hbefore)
        · obtain rfl := hkeys i index ti trade hti htrade hkey
          exact .inr ⟨_, rfl⟩

theorem invariant_resumed {s : System server} {p : Process} {index : ℕ} {eventCursor : String}
    (h : s.Invariant py settings stream) (hp : s.process = some p)
    (hphase : p.phase = .recorded index eventCursor) (events : ℕ) (time : ℚ) :
    { s with
      process := some
        { p with
          eventsSinceFlush := events
          lastFlushTime := time
          phase := if p.dedupStore.isSome then .connecting else .receiving (index + 1) } }.Invariant
      py settings stream := by
  obtain ⟨hcursor, hsettled, hcovered⟩ : eventCursor = p.cursor ∧ s.Settled stream (index + 1) ∧
      s.Covered stream eventCursor := by
    have hsettled := h.phase p hp
    rwa [PhaseSettled, hphase] at hsettled
  subst hcursor
  refine h.keep hp rfl rfl rfl (fun _ hi => hi) (fun _ hc => .inl hc) (fun _ hc => hc)
    (h.lastCursor p hp) ?_ ?_
  · by_cases hdedup : p.dedupStore.isSome
    · simp only [PhaseSettled, hdedup, if_true]
      exact hcovered
    · simp only [PhaseSettled, hdedup]
      exact ⟨hsettled, hcovered⟩
  · simp [hphase]

theorem invariant_processed {s : System server} {p : Process} {index : ℕ} {eventCursor : String}
    (h : s.Invariant py settings stream) (hp : s.process = some p)
    (hphase : p.phase = .recorded index eventCursor) (now : ℚ) (written : Bool) :
    (s.processed py settings p index eventCursor now written).Invariant py settings stream := by
  rw [processed]
  by_cases hflush :
      settings.flushPolicy.shouldFlush (p.eventsSinceFlush + 1) p.lastFlushTime now
  · have hcovered : s.Covered stream eventCursor := by
      have hsettled := h.phase p hp
      rw [PhaseSettled, hphase] at hsettled
      exact hsettled.2.2
    rw [if_pos hflush]
    apply invariant_resumed (h.flush hcovered written) _ hphase
    rwa [process_flush]
  · rw [if_neg hflush]
    exact invariant_resumed h hp hphase _ _

section Labels

variable {s t : System server} {p : Process}

theorem invariant_connect (h : s.Invariant py settings stream) (hp : s.process = some p)
    (hphase : p.phase = .connecting) {head : ℕ}
    (hnow : p.cursor = "now" → s.Settled stream head) :
    { s with
      process := some
        { p with
          phase := .receiving
            (if p.cursor = "now" then head else stream.covered p.cursor) } }.Invariant
      py settings stream := by
  have hcovered : s.Covered stream p.cursor := by
    have hsettled := h.phase p hp
    rwa [PhaseSettled, hphase] at hsettled
  refine h.keep hp rfl rfl rfl (fun _ hi => hi) (fun _ hc => .inl hc) (fun _ hc => hc)
    (h.lastCursor p hp) ⟨?_, hcovered⟩ ?_
  · by_cases hcursor : p.cursor = "now"
    · rw [if_pos hcursor]
      exact hnow hcursor
    · rw [if_neg hcursor]
      exact hcovered hcursor
  · simp [hphase]

theorem covered_cursor (h : s.Invariant py settings stream) (hp : s.process = some p)
    (hphase : p.phase = .connecting ∨ ∃ n, p.phase = .receiving n) :
    s.Covered stream p.cursor := by
  have hsettled := h.phase p hp
  rcases hphase with hphase | ⟨n, hphase⟩
  · rwa [PhaseSettled, hphase] at hsettled
  · rw [PhaseSettled, hphase] at hsettled
    exact hsettled.2

theorem invariant_disconnect (h : s.Invariant py settings stream) (hp : s.process = some p)
    (hphase : p.phase = .connecting ∨ ∃ n, p.phase = .receiving n) :
    { s with process := some { p with phase := .connecting } }.Invariant py settings stream := by
  have hcovered := covered_cursor h hp hphase
  refine h.keep hp rfl rfl rfl (fun _ hi => hi) (fun _ hc => .inl hc) (fun _ hc => hc)
    (h.lastCursor p hp) hcovered ?_
  intro i c hyield
  simp [hyield] at hphase

theorem invariant_reject (h : s.Invariant py settings stream) (hp : s.process = some p)
    (hphase : p.phase = .connecting ∨ ∃ n, p.phase = .receiving n) :
    { s with
      legacy := none
      process := some { p with cursor := "now", phase := .connecting } }.Invariant
      py settings stream := by
  refine h.keep hp rfl rfl rfl (fun _ hi => hi) (fun _ hc => .inl hc) (by simp)
    (h.lastCursor p hp) (fun hne => absurd rfl hne) ?_
  intro i c hyield
  simp [hyield] at hphase

theorem invariant_score (h : s.Invariant py settings stream) (hp : s.process = some p)
    {index : ℕ} {eventCursor : String} (hphase : p.phase = .yielded index eventCursor) :
    { s with
      process := some { p with phase := .scored index eventCursor }
      delivered := s.delivered ++ [index] }.Invariant py settings stream := by
  have hp₀ := h.phase p hp
  rw [PhaseSettled, hphase] at hp₀
  obtain ⟨hcursor, hsettled, hcovered⟩ := hp₀
  have hmore : ∀ i ∈ s.delivered, i ∈ s.delivered ++ [index] :=
    fun i hi => List.mem_append_left _ hi
  have hlast : index ∈ s.delivered ++ [index] :=
    List.mem_append_right _ (List.mem_singleton.mpr rfl)
  refine h.keep hp rfl rfl rfl hmore (fun _ hc => .inl hc) (fun _ hc => hc)
    (covered_congr hmore (h.lastCursor p hp)) ⟨hcursor, ?_, ?_⟩ ?_
  · apply settled_succ
    · intro i hlt htrade
      exact hmore i (hsettled i hlt htrade)
    · intro _
      exact hlast
  · intro hnow j hj htrade
    rcases hcovered hnow j hj htrade with hmem | rfl
    · exact hmore j hmem
    · exact hlast
  · intro i c hyield
    obtain ⟨rfl, -⟩ := Phase.yielded.inj (hphase.symm.trans hyield)
    exact .inl hlast

theorem invariant_record (h : s.Invariant py settings stream) (hp : s.process = some p)
    {index : ℕ} {eventCursor : String} (hphase : p.phase = .scored index eventCursor) :
    { s with
      process := some
        { p with lastCursor := eventCursor, phase := .recorded index eventCursor } }.Invariant
      py settings stream := by
  have hp₀ := h.phase p hp
  rw [PhaseSettled, hphase] at hp₀
  refine h.keep hp rfl rfl rfl (fun _ hi => hi) (fun _ hc => .inl hc) (fun _ hc => hc)
    hp₀.2.2 hp₀ ?_
  simp [hphase]

theorem invariant_signal (h : s.Invariant py settings stream) (hp : s.process = some p)
    (written : Bool) :
    { s.flush py p.lastCursor written with process := some { p with stopping := true } }.Invariant
      py settings stream := by
  have hflushed := h.flush (h.lastCursor p hp) written
  have hp' : (s.flush py p.lastCursor written).process = some p := by rwa [process_flush]
  refine hflushed.keep hp' rfl rfl rfl (fun _ hi => hi) (fun _ hc => .inl hc) (fun _ hc => hc)
    (hflushed.lastCursor p hp') (hflushed.phase p hp') ?_
  intro i c hyield
  exact .inr ⟨c, hyield⟩

theorem invariant_finish (h : s.Invariant py settings stream) (hp : s.process = some p)
    (hnone : s.NoneTaken py stream) (written : Bool) :
    { s.flush py p.lastCursor written with process := none }.Invariant py settings stream :=
  (h.flush (h.lastCursor p hp) written).ended (noneTaken_flush hnone _ _) rfl rfl rfl
    (fun _ hc => .inl hc) rfl

theorem invariant_stepProcess {l : Label} (hkeys : DistinctKeys py stream)
    (h : s.Invariant py settings stream) (hp : s.process = some p)
    (hharmless : s.Harmless py stream l) (hstep : s.stepProcess py settings stream p l = some t) :
    t.Invariant py settings stream := by
  cases l with
  | start => cases hstep
  | connect head =>
    cases hphase : p.phase with
    | connecting =>
      simp only [stepProcess, hphase, Option.some.injEq] at hstep
      subst hstep
      exact invariant_connect h hp hphase (hharmless p hp)
    | _ => simp [stepProcess, hphase] at hstep
  | receive readings =>
    cases hphase : p.phase with
    | receiving index =>
      simp only [stepProcess, hphase] at hstep
      apply invariant_receive hkeys h hp hphase _ hstep
      intro trade store htrade hstore hmissing
      exact hharmless p hp index trade store hphase htrade hstore hmissing
    | _ => simp [stepProcess, hphase] at hstep
  | disconnect =>
    cases hphase : p.phase with
    | connecting =>
      simp only [stepProcess, hphase, Option.some.injEq] at hstep
      subst hstep
      exact invariant_disconnect h hp (.inl hphase)
    | receiving index =>
      simp only [stepProcess, hphase, Option.some.injEq] at hstep
      subst hstep
      exact invariant_disconnect h hp (.inr ⟨index, hphase⟩)
    | _ => simp [stepProcess, hphase] at hstep
  | reject =>
    have hcursor : p.cursor ≠ "now" := by
      intro hcursor
      cases hphase : p.phase with
      | _ => simp [stepProcess, hphase, hcursor] at hstep
    cases hphase : p.phase with
    | connecting =>
      simp only [stepProcess, hphase, if_neg hcursor, Option.some.injEq] at hstep
      subst hstep
      exact invariant_reject h hp (.inl hphase)
    | receiving index =>
      simp only [stepProcess, hphase, if_neg hcursor, Option.some.injEq] at hstep
      subst hstep
      exact invariant_reject h hp (.inr ⟨index, hphase⟩)
    | _ => simp [stepProcess, hphase] at hstep
  | score =>
    cases hphase : p.phase with
    | yielded index eventCursor =>
      by_cases hstopping : p.stopping
      · simp [stepProcess, hphase, hstopping] at hstep
      · simp only [stepProcess, hphase, if_neg hstopping, Option.some.injEq] at hstep
        subst hstep
        exact invariant_score h hp hphase
    | _ => simp [stepProcess, hphase] at hstep
  | record =>
    cases hphase : p.phase with
    | scored index eventCursor =>
      simp only [stepProcess, hphase, Option.some.injEq] at hstep
      subst hstep
      exact invariant_record h hp hphase
    | _ => simp [stepProcess, hphase] at hstep
  | checkpoint now written =>
    cases hphase : p.phase with
    | recorded index eventCursor =>
      simp only [stepProcess, hphase, Option.some.injEq] at hstep
      subst hstep
      exact invariant_processed h hp hphase now written
    | _ => simp [stepProcess, hphase] at hstep
  | signal written =>
    simp only [stepProcess, Option.some.injEq] at hstep
    subst hstep
    exact invariant_signal h hp written
  | finish written =>
    cases hphase : p.phase with
    | receiving index =>
      simp only [stepProcess, hphase, Option.some.injEq] at hstep
      subst hstep
      exact invariant_finish h hp hharmless written
    | yielded index eventCursor =>
      by_cases hstopping : p.stopping
      · simp only [stepProcess, hphase, if_pos hstopping, Option.some.injEq] at hstep
        subst hstep
        exact invariant_finish h hp hharmless written
      · simp [stepProcess, hphase, hstopping] at hstep
    | _ => simp [stepProcess, hphase] at hstep
  | crash =>
    simp only [stepProcess, Option.some.injEq] at hstep
    subst hstep
    exact h.ended hharmless rfl rfl rfl (fun _ hc => .inl hc) rfl

/-- The step lemma. -/
theorem invariant_next {l : Label} (hkeys : DistinctKeys py stream)
    (h : s.Invariant py settings stream) (hharmless : s.Harmless py stream l)
    (hstep : s.next py settings stream l = some t) : t.Invariant py settings stream := by
  cases hp : s.process with
  | some p =>
    simp only [next, hp] at hstep
    exact invariant_stepProcess hkeys h hp hharmless hstep
  | none =>
    cases l with
    | start now redisConnected =>
      simp only [next, hp, Option.some.injEq] at hstep
      subst hstep
      exact invariant_start h hp now redisConnected
    | _ => simp [next, hp] at hstep

end Labels

theorem Fresh.invariant {s : System server} (h : s.Fresh py settings stream) :
    s.Invariant py settings stream := by
  have hnone : ∀ cursor, (cursor ≠ "now" → stream.covered cursor = 0) →
      s.Covered stream cursor := by
    intro cursor hcovered hnow index hlt
    rw [hcovered hnow] at hlt
    exact absurd hlt (Nat.not_lt_zero index)
  constructor
  · exact fun cursor hcursor => hnone cursor (h.checkpoint cursor hcursor)
  · exact fun cursor hcursor => hnone cursor (h.legacy cursor hcursor)
  · exact hnone _ h.default
  · simp [h.process]
  · simp [h.process]
  · intro index trade htrade hknown
    rw [Registered, h.process] at hknown
    exact absurd hknown (h.unregistered index trade htrade)

theorem invariant_run {s t : System server} {ls : List Label} (hkeys : DistinctKeys py stream)
    (hfresh : s.Fresh py settings stream) (hrun : Run (HarmlessStep py settings stream) s ls t) :
    t.Invariant py settings stream := by
  apply hrun.invariant _ hfresh.invariant
  intro u l v hu hstep
  exact invariant_next hkeys hu hstep.2 hstep.1

/-- Of a stream whose trades have distinct keys, every run whose steps meet the condition delivers
each trade before it goes past it for good. -/
theorem every_trade_delivered {s t : System server} {ls : List Label}
    (hkeys : DistinctKeys py stream) (hfresh : s.Fresh py settings stream)
    (hrun : Run (HarmlessStep py settings stream) s ls t) (index : ℕ)
    (htrade : (stream.trade? index).isSome) (hpassed : t.Passed stream index) :
    index ∈ t.delivered := by
  have hinv := invariant_run hkeys hfresh hrun
  rcases hpassed with ⟨cursor, hcursor, hnow, hlt⟩ | ⟨p, hp, next, hphase, hlt⟩
  · exact hinv.checkpoint cursor hcursor hnow index hlt htrade
  · have hsettled := hinv.phase p hp
    rw [PhaseSettled, hphase] at hsettled
    exact hsettled.1 index hlt htrade

variable (stream) in
/-- A check of a step that suffices for the condition. -/
def clean (s : System server) : Label → Bool
  | .connect head => head = 0
  | .receive readings =>
    match s.process with
    | some { phase := .receiving index, dedupStore := some store, .. } =>
      (stream.trade? index).all fun trade => !store.tooOld (some trade.ledgerCloseTime) readings
    | _ => true
  | .finish _ | .crash =>
    match s.process with
    | some { phase := .yielded .., .. } => false
    | _ => true
  | _ => true

theorem harmless_of_clean {s : System server} {l : Label} (h : s.clean stream l) :
    s.Harmless py stream l := by
  have hnone : s.clean stream .crash → s.NoneTaken py stream := by
    intro hclean p hp index eventCursor trade hphase
    rw [clean, Option.mem_def.mp hp] at hclean
    obtain ⟨store, cursor, last, phase, events, time, stopping⟩ := p
    obtain rfl : phase = .yielded index eventCursor := hphase
    simp at hclean
  cases l with
  | connect head =>
    intro p _ _ index hlt
    have hhead : head = 0 := by simpa [clean] using h
    exact absurd (hhead ▸ hlt) (Nat.not_lt_zero index)
  | receive readings =>
    intro p hp index trade store hphase htrade hstore _
    rw [clean, Option.mem_def.mp hp] at h
    obtain ⟨dedupStore, cursor, last, phase, events, time, stopping⟩ := p
    obtain rfl : phase = .receiving index := hphase
    obtain rfl : dedupStore = some store := hstore
    simpa [htrade] using h
  | finish written => exact hnone h
  | crash => exact hnone h
  | _ => trivial

variable (py settings stream) in
def cleanRun (s : System server) (ls : List Label) : Option (System server) :=
  ls.foldlM (fun s l => if s.clean stream l then s.next py settings stream l else none) s

theorem run_of_cleanRun {s t : System server} {ls : List Label}
    (h : s.cleanRun py settings stream ls = some t) :
    Run (HarmlessStep py settings stream) s ls t := by
  apply Run.mono _ (run_iff_foldlM.mpr h)
  rintro u l v ⟨hnext, hclean⟩
  exact ⟨hnext, harmless_of_clean hclean⟩

end System

end Steps

theorem defaultSeconds_pos : (0 : ℚ) < 10 := by decide

def defaultSettings : Settings where
  ingestionDedupEnabled := true
  idempotencyReplayWindowSeconds := 3600
  horizonDefaultCursor := "0-0"
  flushPolicy := ⟨1, 10, by decide, defaultSeconds_pos⟩

def idle : System expiringKeys where
  redis := ([] : List (String × ℚ))
  checkpoint := none
  legacy := none
  process := none
  delivered := []

namespace System

theorem idle_fresh : idle.Fresh asciiBuiltins defaultSettings loneStream where
  process := rfl
  checkpoint := by simp [idle]
  legacy := by simp [idle]
  default _ := by decide
  unregistered := by
    rintro index trade - ⟨t, hexists⟩
    exact absurd hexists (by simp [expiringKeys, idle, existsAt])

/-- The process crashes after it registered the trade, and the next one skips it for a duplicate. -/
theorem crash_loses_trade :
    (([.start 0 true, .connect 0, .receive (answeredAt 1001), .crash,
        .start 0 true, .connect 0, .receive (answeredAt 1010)] : List Label).foldlM
      (System.next asciiBuiltins defaultSettings loneStream) idle).map
      (fun t => (t.delivered, t.process.map Process.phase)) = some ([], some (.receiving 1)) := by
  decide +kernel

end System

end TradeStreaming
