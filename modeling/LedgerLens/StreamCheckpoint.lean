import LedgerLens.HorizonTrades
import LedgerLens.JsonParsing
import LedgerLens.LabelledRuns
import LedgerLens.RollingWindow

/-!
# The unified checkpoint of a stream

The `stream` command of `cli.py` over its checkpoint (`ingestion/stream_checkpoint.py`) and the
store of the rolling windows (`detection/rolling_window.py`). A process handles the trades that
follow a cursor and flushes its cursor and its windows together, by its policy, from the signal
handler and at its end. It may end anywhere, and the next one restores what was committed.
-/
namespace StreamCheckpoint

open Dictionaries JsonText LabelledRuns RollingWindow
open HorizonTrades (Builtins FlushPolicy asciiBuiltins validateCursor)

variable {Rest : Type}

/-! ## The store of the windows -/

/-- `model_dump` of a trade, and the trade that its dictionary makes, if it makes one. -/
structure TradeModel (Rest : Type) where
  modelDump : Trade Rest → Json
  construct : Json → Option (Trade Rest)

def elementsOf : List Json → Elements
  | [] => .nil
  | value :: rest => .cons value (elementsOf rest)

def elementList : Elements → List Json
  | .nil => []
  | .cons value rest => value :: elementList rest

theorem elementList_elementsOf (l : List Json) : elementList (elementsOf l) = l := by
  induction l with
  | nil => rfl
  | cons value rest ih => rw [elementsOf, elementList, ih]

/-- What a loop over the value goes through. -/
def items : Json → Option (List Json)
  | .array elements => some (elementList elements)
  | .object members => some (members.toList.map fun m => .string m.1)
  | .string s => some (s.toList.map fun c => .string (String.ofList [c]))
  | _ => none

structure WindowRow where
  tradesJson : String
  lastScore : Option ℤ
  deriving DecidableEq

section Store

variable (model : TradeModel Rest)

def toDict (window : WalletWindow Rest) : Json :=
  let lastScore : Json :=
    match window.lastScore with
    | none => .null
    | some score => .number (.ofInt score)
  let trades := elementsOf (window.trades.map model.modelDump)
  .object (.ofList [("trades", .array trades), ("last_score", lastScore)])

/-- The trades of a window; its last score comes from the column. -/
def fromDict (data : Json) : Option (List (Trade Rest)) :=
  match data with
  | .object members =>
    match members.toList.reverse.find? fun m => m.1 = "trades" with
    | none => some []
    | some (_, trades) => (items trades).bind fun l => l.mapM model.construct
  | _ => none

def toRow (window : WalletWindow Rest) : WindowRow where
  tradesJson := String.ofList ((toDict model window).render .default)
  lastScore := window.lastScore

def saveState (rows : Dictionary String WindowRow) (wallet : String) (window : WalletWindow Rest) :
    Dictionary String WindowRow :=
  rows.set wallet (toRow model window)

def saveAll (rows : Dictionary String WindowRow) (state : RollingWindowState Rest) :
    Dictionary String WindowRow :=
  state.entries.foldl (fun rows e => saveState model rows e.1 e.2) rows

/-- A row that is no JSON is skipped; trades that cannot be built raise. -/
def loadRow (state : RollingWindowState Rest) (e : String × WindowRow) :
    Option (RollingWindowState Rest) :=
  match loads e.2.tradesJson with
  | none => some state
  | some data => (fromDict model data).map fun trades => state.set e.1 ⟨trades, e.2.lastScore⟩

def loadAll (rows : Dictionary String WindowRow) : Option (RollingWindowState Rest) :=
  rows.entries.foldlM (loadRow model) .empty

variable {model}

def Storable (model : TradeModel Rest) (trade : Trade Rest) : Prop :=
  model.construct (model.modelDump trade) = some trade

theorem mapM_construct {trades : List (Trade Rest)} (h : ∀ t ∈ trades, Storable model t) :
    (trades.map model.modelDump).mapM model.construct = some trades := by
  induction trades with
  | nil => rfl
  | cons t rest ih =>
    have ht : model.construct (model.modelDump t) = some t := h t List.mem_cons_self
    have hrest := ih fun t' ht' => h t' (List.mem_cons_of_mem _ ht')
    rw [List.map_cons, List.mapM_cons, ht, hrest]
    rfl

theorem fromDict_toDict {window : WalletWindow Rest}
    (h : ∀ t ∈ window.trades, Storable model t) :
    fromDict model (toDict model window) = some window.trades := by
  rw [toDict, fromDict, Members.toList_ofList]
  have hfound (trades lastScore : Json) :
      [("trades", trades), ("last_score", lastScore)].reverse.find? (fun m => m.1 = "trades") =
        some ("trades", trades) := rfl
  simp only [hfound, items, elementList_elementsOf, Option.bind_some]
  exact mapM_construct h

theorem loadRow_toRow {window : WalletWindow Rest} (h : ∀ t ∈ window.trades, Storable model t)
    (state : RollingWindowState Rest) (wallet : String) :
    loadRow model state (wallet, toRow model window) = some (state.set wallet window) := by
  have hloads : loads (toRow model window).tradesJson = some (toDict model window) :=
    loads_render ⟨rfl, rfl⟩ _
  rw [loadRow, hloads]
  simp only
  rw [fromDict_toDict h]
  rfl

theorem saveAll_eq (rows : Dictionary String WindowRow) (state : RollingWindowState Rest) :
    saveAll model rows state = rows.setAll (state.mapValues (toRow model)).entries := by
  rw [Dictionary.setAll, Dictionary.mapValues, List.foldl_map]
  rfl

theorem saveAll_same {rows : Dictionary String WindowRow} {state : RollingWindowState Rest}
    (h : ∀ wallet ∈ rows.keys, wallet ∈ state.keys) :
    (saveAll model rows state).Same (state.mapValues (toRow model)) := by
  rw [saveAll_eq]
  apply Dictionary.same_setAll
  intro wallet hwallet
  rw [Dictionary.keys_mapValues]
  exact h wallet hwallet

theorem foldlM_loadRow {state : RollingWindowState Rest} {entries : List (String × WindowRow)}
    (hentry : ∀ e ∈ entries, ∃ window, state.get? e.1 = some window ∧ e.2 = toRow model window)
    (hstorable : ∀ wallet window, state.get? wallet = some window →
      ∀ t ∈ window.trades, Storable model t) (loaded : RollingWindowState Rest) :
    entries.foldlM (loadRow model) loaded =
      some (loaded.setAll (entries.map fun e => (e.1, (state.get? e.1).getD .init))) := by
  induction entries generalizing loaded with
  | nil => rfl
  | cons e rest ih =>
    obtain ⟨window, hwindow, hrow⟩ := hentry e List.mem_cons_self
    have hload : loadRow model loaded e = some (loaded.set e.1 window) := by
      rw [← loadRow_toRow (hstorable e.1 window hwindow), ← hrow]
    rw [List.foldlM_cons, hload, List.map_cons, hwindow]
    exact ih (fun e' he' => hentry e' (List.mem_cons_of_mem _ he')) _

theorem loadAll_same {rows : Dictionary String WindowRow} {state : RollingWindowState Rest}
    (hrows : rows.Same (state.mapValues (toRow model)))
    (hstorable : ∀ wallet window, state.get? wallet = some window →
      ∀ t ∈ window.trades, Storable model t) :
    ∃ loaded, loadAll model rows = some loaded ∧ loaded.Same state := by
  have hentry (e : String × WindowRow) (he : e ∈ rows.entries) :
      ∃ window, state.get? e.1 = some window ∧ e.2 = toRow model window := by
    have hget := hrows e.1
    rw [Dictionary.get?_eq_some.mpr he, Dictionary.get?_mapValues] at hget
    obtain ⟨window, hwindow, hrow⟩ := Option.map_eq_some_iff.mp hget.symm
    exact ⟨window, hwindow, hrow.symm⟩
  refine ⟨_, foldlM_loadRow hentry hstorable .empty, fun wallet => ?_⟩
  have hkeys : (rows.entries.map fun e => (e.1, (state.get? e.1).getD .init)).map Prod.fst =
      rows.keys := by
    rw [List.map_map]
    rfl
  cases hwallet : rows.get? wallet with
  | none =>
    have hnone : wallet ∉ rows.keys := by
      rw [Dictionary.mem_keys_iff, hwallet]
      simp
    rw [Dictionary.get?_setAll_of_notMem (hkeys ▸ hnone), Dictionary.get?_empty]
    have hstate := hrows wallet
    rw [hwallet, Dictionary.get?_mapValues] at hstate
    exact (Option.map_eq_none_iff.mp hstate.symm).symm
  | some row =>
    have hmem := Dictionary.get?_eq_some.mp hwallet
    obtain ⟨window, hwindow, -⟩ := hentry (wallet, row) hmem
    have hwritten : (wallet, window) ∈
        rows.entries.map fun e => (e.1, (state.get? e.1).getD .init) :=
      List.mem_map.mpr ⟨(wallet, row), hmem, by rw [hwindow]; rfl⟩
    rw [Dictionary.get?_setAll_of_mem (hkeys ▸ rows.nodup) hwritten, hwindow]

end Store

/-! ## The stream command -/

structure Checkpoint where
  pagingToken : String
  walletCount : ℕ
  deriving DecidableEq

structure Database where
  windows : Dictionary String WindowRow
  checkpoint : Option Checkpoint
  deriving DecidableEq

/-- `legacy` is what the cursor file from before the unified checkpoint holds. -/
structure Settings where
  horizonDefaultCursor : String
  legacy : Option String
  flushPolicy : FlushPolicy

structure Event (Rest : Type) where
  trade : Trade Rest
  cursor : String

/-- The trades of Horizon in order. The cursor of a trade stands for the trades up to it, which are
as many as `covered` says; any other cursor stands where Horizon takes it to stand. -/
structure Stream (Rest : Type) where
  event : ℕ → Event Rest
  covered : String → Option ℕ
  covered_iff : ∀ cursor n, covered cursor = some n ↔ ∃ i, (event i).cursor = cursor ∧ n = i + 1

/-- Where the loop stands: it waits for the next trade, the scorer has added one to its windows, or
its cursor was taken over as well. -/
inductive Phase where
  | receiving
  | added (eventCursor : String)
  | recorded (eventCursor : String)
  deriving DecidableEq

/-- The last cursor stands for the trades in the windows. -/
def Phase.settled : Phase → Prop
  | .added _ => False
  | _ => True

instance (phase : Phase) : Decidable phase.settled :=
  match phase with
  | .added _ => isFalse id
  | .receiving | .recorded _ => isTrue trivial

/-- `position` counts the trades of the stream that `lastCursor` stands for, and `reading` those
that the connection has gone past. -/
structure Process (Rest : Type) where
  windows : RollingWindowState Rest
  lastCursor : String
  position : ℕ
  reading : ℕ
  phase : Phase
  eventsSinceFlush : ℕ
  lastFlushTime : ℚ
  stopping : Bool

structure Flush (Rest : Type) where
  cursor : String
  windows : RollingWindowState Rest
  position : ℕ

structure System (Rest : Type) where
  db : Database
  process : Option (Process Rest)
  committed : Option (Flush Rest)

/-- The signal handler may run anywhere, also while a trade is handled. The stream skips a trade
that the deduplication finds seen or too old, or that a connection opened at `now` leaves out. -/
inductive Label where
  | start (position : ℕ) (now : ℚ)
  | skip
  | add (now now' : Instant)
  | record
  | processed (now : ℚ) (written : Bool)
  | signal (written : Bool)
  | finish (written : Bool)
  | crash
  deriving DecidableEq

section Steps

variable (py : Builtins) (settings : Settings) (model : TradeModel Rest) (stream : Stream Rest)

def freshCursor : String :=
  (settings.legacy.filter (validateCursor py)).getD settings.horizonDefaultCursor

namespace System

def init : System Rest where
  db := ⟨.empty, none⟩
  process := none
  committed := none

/-- A malformed checkpoint is none. That the number of wallets differs is only reported. -/
def startCursor (s : System Rest) : String :=
  match s.db.checkpoint with
  | none => freshCursor py settings
  | some checkpoint =>
    if validateCursor py checkpoint.pagingToken then checkpoint.pagingToken
    else settings.horizonDefaultCursor

/-- One transaction for all rows; a malformed cursor is refused, and a failed write undone. -/
def flush (s : System Rest) (p : Process Rest) (written : Bool) : System Rest :=
  if validateCursor py p.lastCursor ∧ written then
    { s with
      db :=
        { windows := saveAll model s.db.windows p.windows
          checkpoint := some ⟨p.lastCursor, p.windows.entries.length⟩ }
      committed := some ⟨p.lastCursor, p.windows, p.position⟩ }
  else s

def start (s : System Rest) (position : ℕ) (now : ℚ) : Option (System Rest) :=
  let cursor := s.startCursor py settings
  if ∀ n ∈ stream.covered cursor, position = n then
    (loadAll model s.db.windows).map fun windows =>
      { s with
        process := some
          { windows := windows
            lastCursor := cursor
            position := position
            reading := position
            phase := .receiving
            eventsSinceFlush := 0
            lastFlushTime := now
            stopping := false } }
  else none

/-- `on_trade_processed`. -/
def processed (s : System Rest) (p : Process Rest) (now : ℚ) (written : Bool) : System Rest :=
  if settings.flushPolicy.shouldFlush (p.eventsSinceFlush + 1) p.lastFlushTime now then
    { s.flush py model p written with
      process := some { p with phase := .receiving, eventsSinceFlush := 0, lastFlushTime := now } }
  else
    { s with
      process := some { p with phase := .receiving, eventsSinceFlush := p.eventsSinceFlush + 1 } }

def stepProcess (s : System Rest) (p : Process Rest) : Label → Option (System Rest)
  | .start .. => none
  | .skip =>
    match p.phase with
    | .receiving => some { s with process := some { p with reading := p.reading + 1 } }
    | _ => none
  | .add now now' =>
    match p.phase with
    | .receiving =>
      if p.stopping then none
      else
        let event := stream.event p.reading
        some
          { s with
            process := some
              { p with
                windows := scoreOnTrade p.windows ⟨event.trade, now, now'⟩
                phase := .added event.cursor } }
    | _ => none
  | .record =>
    match p.phase with
    | .added eventCursor =>
      some
        { s with
          process := some
            { p with
              lastCursor := eventCursor
              position := p.reading + 1
              reading := p.reading + 1
              phase := .recorded eventCursor } }
    | _ => none
  | .processed now written =>
    match p.phase with
    | .recorded _ => some (s.processed py settings model p now written)
    | _ => none
  | .signal written =>
    some { s.flush py model p written with process := some { p with stopping := true } }
  | .finish written =>
    match p.phase with
    | .receiving => some { s.flush py model p written with process := none }
    | _ => none
  | .crash => some { s with process := none }

def next (s : System Rest) (l : Label) : Option (System Rest) :=
  match s.process, l with
  | none, .start position now => s.start py settings model stream position now
  | none, _ => none
  | some p, l => s.stepProcess py settings model stream p l

end System

def Step (s : System Rest) (l : Label) (t : System Rest) : Prop :=
  s.next py settings model stream l = some t

/-! ## What is durable, and what it is restored to -/

def SameFlush (s : System Rest) : Prop :=
  match s.committed with
  | none => s.db = ⟨.empty, none⟩
  | some f =>
    s.db.checkpoint = some ⟨f.cursor, f.windows.entries.length⟩ ∧
      s.db.windows.Same (f.windows.mapValues (toRow model))

/-- A process that starts on an empty database and handles one trade after the other. -/
def alone (origin : ℕ) (readings : List (Instant × Instant)) : List Label :=
  .start origin 0 :: readings.flatMap fun r => [.add r.1 r.2, .record, .processed 0 true]

/-- A process that never crashed and got every trade; the clock showed `readings` meanwhile. -/
def Uncrashed (origin : ℕ) (readings : List (Instant × Instant)) (q : Process Rest) : Prop :=
  ∃ t, Run (Step py settings model stream) .init (alone origin readings) t ∧ t.process = some q

/-- Such a process has handled the same trades and has the same windows. -/
def AsUncrashed (origin : ℕ) (readings : List (Instant × Instant)) (p : Process Rest) : Prop :=
  ∃ q, Uncrashed py settings model stream origin readings q ∧ q.position = p.position ∧
    p.windows.Same q.windows

/-- The condition on one step: no trade is skipped, the handler commits nothing while a trade is in
the windows that the last cursor does not stand for, and a durable cursor that is not the cursor of
a trade is taken up where it was committed. -/
def Covered (s : System Rest) : Label → Prop
  | .skip => False
  | .signal written =>
    ∀ p ∈ s.process, validateCursor py p.lastCursor ∧ written → p.phase.settled
  | .start position _ => ∀ f ∈ s.committed, stream.covered f.cursor = none → position = f.position
  | _ => True

instance (s : System Rest) (l : Label) : Decidable (Covered py stream s l) :=
  match l with
  | .signal written => inferInstanceAs
    (Decidable (∀ p ∈ s.process, validateCursor py p.lastCursor ∧ written → p.phase.settled))
  | .start position _ => inferInstanceAs
    (Decidable (∀ f ∈ s.committed, stream.covered f.cursor = none → position = f.position))
  | .skip => isFalse id
  | .add .. | .record | .processed .. | .finish .. | .crash => isTrue trivial

/-! ## A process that never crashed -/

def callsFrom : ℕ → List (Instant × Instant) → List (Call Rest)
  | _, [] => []
  | origin, r :: rest => ⟨(stream.event origin).trade, r.1, r.2⟩ :: callsFrom (origin + 1) rest

/-- At any time after `readings` and `readings'` the windows show the same close times, unless a
window was full of newer trades when a trade came. -/
def SameView (origin : ℕ) (readings readings' : List (Instant × Instant))
    (windows windows' : RollingWindowState Rest) : Prop :=
  ∀ now, (∀ r ∈ readings ++ readings', r.1 ≤ now ∧ r.2 ≤ now) →
    ∀ wallet, Undisplaced (callsOf wallet (callsFrom stream origin readings)) →
      Undisplaced (callsOf wallet (callsFrom stream origin readings')) →
        ∀ hours, hours ≤ WINDOW_TOLERANCE_HOURS →
          (getWindow windows wallet hours now).map Trade.time =
            (getWindow windows' wallet hours now).map Trade.time

/-- A process without a checkpoint may begin with the trades from `origin` on. -/
def Begins (origin : ℕ) : Prop := ∀ n ∈ stream.covered (freshCursor py settings), origin = n

variable {py settings model stream}

theorem callsFrom_concat (origin : ℕ) (readings : List (Instant × Instant))
    (r : Instant × Instant) :
    callsFrom stream origin (readings ++ [r]) = callsFrom stream origin readings ++
      [⟨(stream.event (origin + readings.length)).trade, r.1, r.2⟩] := by
  induction readings generalizing origin with
  | nil => rfl
  | cons r' rest ih =>
    rw [List.cons_append, callsFrom, callsFrom, ih, List.cons_append, List.length_cons,
      Nat.add_right_comm, Nat.add_assoc]

theorem mem_callsFrom {origin : ℕ} {readings : List (Instant × Instant)} {c : Call Rest}
    (hc : c ∈ callsFrom stream origin readings) :
    (∃ i, (stream.event i).trade = c.trade) ∧ (c.now, c.now') ∈ readings := by
  induction readings generalizing origin with
  | nil => cases hc
  | cons r rest ih =>
    rcases List.mem_cons.mp hc with rfl | hc
    · exact ⟨⟨origin, rfl⟩, List.mem_cons_self⟩
    · exact ⟨(ih hc).1, List.mem_cons_of_mem _ (ih hc).2⟩

theorem callsFrom_trades (origin : ℕ) (readings : List (Instant × Instant)) :
    (callsFrom stream origin readings).map Call.trade =
      (List.range' origin readings.length).map fun i => (stream.event i).trade := by
  induction readings generalizing origin with
  | nil => rfl
  | cons r rest ih =>
    rw [callsFrom, List.map_cons, ih, List.length_cons, List.range'_succ, List.map_cons]

theorem callsFrom_length (origin : ℕ) (readings : List (Instant × Instant)) :
    (callsFrom stream origin readings).length = readings.length := by
  rw [← List.length_map Call.trade, callsFrom_trades, List.length_map, List.length_range']

theorem alone_concat (origin : ℕ) (readings : List (Instant × Instant)) (r : Instant × Instant) :
    alone origin (readings ++ [r]) =
      alone origin readings ++ [.add r.1 r.2, .record, .processed 0 true] := by
  rw [alone, List.flatMap_append, List.flatMap_singleton, ← List.cons_append, ← alone]

theorem step_some_iff {s t : System Rest} {p : Process Rest} (hp : s.process = some p) {l : Label} :
    Step py settings model stream s l t ↔ s.stepProcess py settings model stream p l = some t := by
  simp only [Step, System.next, hp]

theorem step_none_iff {s t : System Rest} (hp : s.process = none) {position : ℕ} {now : ℚ} :
    Step py settings model stream s (.start position now) t ↔
      s.start py settings model stream position now = some t := by
  simp only [Step, System.next, hp]

variable (py settings model) in
theorem processed_process (s : System Rest) (p : Process Rest) (now : ℚ) (written : Bool) :
    ∃ q, (s.processed py settings model p now written).process = some q ∧ q.phase = .receiving ∧
      q.stopping = p.stopping ∧ q.position = p.position ∧ q.reading = p.reading ∧
      q.windows = p.windows := by
  rw [System.processed]
  split_ifs
  · exact ⟨_, rfl, rfl, rfl, rfl, rfl, rfl⟩
  · exact ⟨_, rfl, rfl, rfl, rfl, rfl, rfl⟩

/-- A trade is added, its cursor taken over, and the policy asked. -/
theorem handle_run {s : System Rest} {q : Process Rest} (hq : s.process = some q)
    (hphase : q.phase = .receiving) (hrunning : q.stopping = false)
    (hreading : q.reading = q.position) (r : Instant × Instant) :
    ∃ t q', Run (Step py settings model stream) s [.add r.1 r.2, .record, .processed 0 true] t ∧
      t.process = some q' ∧ q'.phase = .receiving ∧ q'.stopping = false ∧
      q'.reading = q'.position ∧ q'.position = q.position + 1 ∧
      q'.windows = scoreOnTrade q.windows ⟨(stream.event q.position).trade, r.1, r.2⟩ := by
  let event := stream.event q.reading
  let q₁ : Process Rest :=
    { q with
      windows := scoreOnTrade q.windows ⟨event.trade, r.1, r.2⟩
      phase := .added event.cursor }
  let q₂ : Process Rest :=
    { q₁ with
      lastCursor := event.cursor
      position := q.reading + 1
      reading := q.reading + 1
      phase := .recorded event.cursor }
  have hadd : Step py settings model stream s (.add r.1 r.2) { s with process := some q₁ } := by
    rw [step_some_iff hq, System.stepProcess, hphase]
    exact if_neg (by rw [hrunning]; exact Bool.false_ne_true)
  have hrecord : Step py settings model stream { s with process := some q₁ } .record
      { s with process := some q₂ } := rfl
  have hprocessed : Step py settings model stream { s with process := some q₂ } (.processed 0 true)
      (System.processed py settings model { s with process := some q₂ } q₂ 0 true) := rfl
  obtain ⟨q', hq', hphase', hrunning', hposition', hreading', hwindows'⟩ :=
    processed_process py settings model { s with process := some q₂ } q₂ 0 true
  rw [← hreading]
  refine ⟨_, q', ?_, hq', hphase', hrunning'.trans hrunning, hreading'.trans hposition'.symm,
    hposition', hwindows'⟩
  exact run_cons_iff.mpr ⟨_, hadd, run_cons_iff.mpr ⟨_, hrecord, .single hprocessed⟩⟩

variable (model) in
theorem alone_run {origin : ℕ} (horigin : Begins py settings stream origin)
    (readings : List (Instant × Instant)) :
    ∃ t q, Run (Step py settings model stream) .init (alone origin readings) t ∧
      t.process = some q ∧ q.phase = .receiving ∧ q.stopping = false ∧ q.reading = q.position ∧
      q.position = origin + readings.length ∧
      q.windows = feed (callsFrom stream origin readings) := by
  induction readings using List.reverseRecOn with
  | nil =>
    let q : Process Rest :=
      { windows := .empty
        lastCursor := freshCursor py settings
        position := origin
        reading := origin
        phase := .receiving
        eventsSinceFlush := 0
        lastFlushTime := 0
        stopping := false }
    have hstart : Step py settings model stream .init (.start origin 0)
        { (System.init : System Rest) with process := some q } := by
      rw [step_none_iff rfl, System.start]
      split_ifs with h
      · rfl
      · exact absurd horigin h
    exact ⟨_, q, .single hstart, rfl, rfl, rfl, rfl, rfl, rfl⟩
  | append_singleton readings r ih =>
    obtain ⟨s, q, hrun, hq, hphase, hrunning, hreading, hposition, hwindows⟩ := ih
    obtain ⟨t, q', hrun', hq', hphase', hrunning', hreading', hposition', hwindows'⟩ :=
      handle_run hq hphase hrunning hreading r
    refine ⟨t, q', ?_, hq', hphase', hrunning', hreading', ?_, ?_⟩
    · rw [alone_concat]
      exact hrun.append hrun'
    · rw [hposition', hposition, List.length_append, List.length_singleton, Nat.add_assoc]
    · rw [hwindows', hwindows, hposition, callsFrom_concat, feed_concat]

/-! ## Every run -/

/-- The windows are those of a process that began with the trades from `origin` on, after the first
`n` trades of the stream. The clock showed what it read. -/
structure Lineage (py : Builtins) (settings : Settings) (stream : Stream Rest)
    (clock : Set (Instant × Instant)) (n : ℕ) (windows : RollingWindowState Rest) (origin : ℕ)
    (readings : List (Instant × Instant)) : Prop where
  begins : Begins py settings stream origin
  reads : ∀ r ∈ readings, r ∈ clock
  position : n = origin + readings.length
  windows : windows.Same (feed (callsFrom stream origin readings))

structure Durable (py : Builtins) (settings : Settings) (model : TradeModel Rest)
    (stream : Stream Rest) (clock : Set (Instant × Instant)) (s : System Rest) : Prop where
  same : SameFlush model s
  valid : ∀ f ∈ s.committed, validateCursor py f.cursor
  cursor : ∀ f ∈ s.committed, ∀ n ∈ stream.covered f.cursor, f.position = n
  windows : ∀ f ∈ s.committed, ∃ origin readings,
    Lineage py settings stream clock f.position f.windows origin readings

structure Tracks (py : Builtins) (settings : Settings) (stream : Stream Rest)
    (clock : Set (Instant × Instant)) (db : Database) (p : Process Rest) : Prop where
  cursor : ∀ n ∈ stream.covered p.lastCursor, p.position = n
  reading : p.reading = p.position
  known : ∀ wallet ∈ db.windows.keys, wallet ∈ p.windows.keys
  windows : ∃ origin readings,
    match p.phase with
    | .added eventCursor => eventCursor = (stream.event p.position).cursor ∧
        Lineage py settings stream clock (p.position + 1) p.windows origin readings
    | _ => Lineage py settings stream clock p.position p.windows origin readings

structure Invariant (py : Builtins) (settings : Settings) (model : TradeModel Rest)
    (stream : Stream Rest) (clock : Set (Instant × Instant)) (s : System Rest) : Prop where
  durable : Durable py settings model stream clock s
  process : ∀ p ∈ s.process, Tracks py settings stream clock s.db p

variable {clock : Set (Instant × Instant)}

theorem Tracks.lineage {db : Database} {p : Process Rest} (h : Tracks py settings stream clock db p)
    (hphase : p.phase.settled) :
    ∃ origin readings, Lineage py settings stream clock p.position p.windows origin readings := by
  obtain ⟨origin, readings, hwindows⟩ := h.windows
  refine ⟨origin, readings, ?_⟩
  cases hp : p.phase with
  | added eventCursor =>
    rw [hp] at hphase
    exact hphase.elim
  | receiving => simpa only [hp] using hwindows
  | recorded eventCursor => simpa only [hp] using hwindows

theorem Durable.flush {s : System Rest} (h : Durable py settings model stream clock s)
    {p : Process Rest} (hp : Tracks py settings stream clock s.db p) {written : Bool}
    (hphase : validateCursor py p.lastCursor ∧ written → p.phase.settled) :
    Durable py settings model stream clock (s.flush py model p written) ∧
      Tracks py settings stream clock (s.flush py model p written).db p := by
  rw [System.flush]
  split_ifs with hcommit
  · have hsame : (saveAll model s.db.windows p.windows).Same (p.windows.mapValues (toRow model)) :=
      saveAll_same hp.known
    refine ⟨⟨⟨rfl, hsame⟩, fun f hf => ?_, fun f hf => ?_, fun f hf => ?_⟩,
      hp.cursor, hp.reading, ?_, hp.windows⟩
    · obtain rfl := Option.some.inj hf
      exact hcommit.1
    · obtain rfl := Option.some.inj hf
      exact hp.cursor
    · obtain rfl := Option.some.inj hf
      exact hp.lineage (hphase hcommit)
    · intro wallet hwallet
      rw [hsame.mem_keys_iff, Dictionary.keys_mapValues] at hwallet
      exact hwallet
  · exact ⟨h, hp⟩

theorem Durable.alive {s : System Rest} (h : Durable py settings model stream clock s)
    {p : Process Rest} (hp : Tracks py settings stream clock s.db p) :
    Invariant py settings model stream clock { s with process := some p } := by
  refine ⟨⟨h.same, h.valid, h.cursor, h.windows⟩, fun q hq => ?_⟩
  obtain rfl := Option.some.inj hq
  exact hp

theorem Durable.ended {s : System Rest} (h : Durable py settings model stream clock s) :
    Invariant py settings model stream clock { s with process := none } :=
  ⟨⟨h.same, h.valid, h.cursor, h.windows⟩, fun _ hp => by cases hp⟩

theorem Lineage.storable {n : ℕ} {windows : RollingWindowState Rest} {origin : ℕ}
    {readings : List (Instant × Instant)}
    (h : Lineage py settings stream clock n windows origin readings)
    (hstorable : ∀ i, Storable model (stream.event i).trade) (wallet : String)
    (window : WalletWindow Rest) (hwindow : windows.get? wallet = some window) :
    ∀ t ∈ window.trades, Storable model t := by
  intro t ht
  rw [h.windows wallet] at hwindow
  obtain ⟨c, hc, rfl⟩ := mem_feed hwindow ht
  obtain ⟨⟨i, hi⟩, -⟩ := mem_callsFrom hc
  exact hi ▸ hstorable i

theorem Durable.startCursor {s : System Rest} (h : Durable py settings model stream clock s) :
    s.startCursor py settings = (s.committed.map Flush.cursor).getD (freshCursor py settings) := by
  have hsame := h.same
  rw [System.startCursor]
  cases hcommitted : s.committed with
  | none =>
    rw [SameFlush, hcommitted] at hsame
    rw [hsame]
    rfl
  | some f =>
    rw [SameFlush, hcommitted] at hsame
    rw [hsame.1]
    exact if_pos (h.valid f hcommitted)

theorem Durable.start {s t : System Rest} (h : Durable py settings model stream clock s)
    (hstorable : ∀ i, Storable model (stream.event i).trade) {position : ℕ} {now : ℚ}
    (hresumed : ∀ f ∈ s.committed, stream.covered f.cursor = none → position = f.position)
    (hstart : s.start py settings model stream position now = some t) :
    Invariant py settings model stream clock t := by
  rw [System.start] at hstart
  split_ifs at hstart with hposition
  obtain ⟨windows, hload, rfl⟩ := Option.map_eq_some_iff.mp hstart
  apply h.alive
  have hsame := h.same
  have hcursor := h.startCursor
  cases hcommitted : s.committed with
  | none =>
    rw [SameFlush, hcommitted] at hsame
    rw [hcommitted, Option.map_none, Option.getD_none] at hcursor
    have hwindows : windows = .empty := by
      rw [hsame] at hload
      exact (Option.some.inj hload).symm
    have hbegins : Begins py settings stream position := by
      rw [Begins, ← hcursor]
      exact hposition
    refine ⟨hposition, rfl, fun wallet hwallet => ?_, position, [], hbegins, ?_, rfl, ?_⟩
    · rw [hsame] at hwallet
      cases hwallet
    · exact fun r hr => by cases hr
    · rw [hwindows]
      exact .refl _
  | some f =>
    rw [SameFlush, hcommitted] at hsame
    rw [hcommitted, Option.map_some, Option.getD_some] at hcursor
    obtain ⟨origin, readings, hlineage⟩ := h.windows f hcommitted
    obtain ⟨loaded, hloaded, hrestored⟩ := loadAll_same hsame.2 (hlineage.storable hstorable)
    obtain rfl : loaded = windows := Option.some.inj (hloaded.symm.trans hload)
    have hresume : position = f.position := by
      rw [hcursor] at hposition
      cases hcovered : stream.covered f.cursor with
      | none => exact hresumed f hcommitted hcovered
      | some n => exact (hposition n hcovered).trans (h.cursor f hcommitted n hcovered).symm
    refine ⟨hposition, rfl, fun wallet hwallet => ?_, origin, readings, hlineage.begins,
      hlineage.reads, hresume.trans hlineage.position, hrestored.trans hlineage.windows⟩
    rw [hsame.2.mem_keys_iff, Dictionary.keys_mapValues] at hwallet
    exact hrestored.mem_keys_iff.mpr hwallet

theorem Tracks.add {db : Database} {p : Process Rest} (h : Tracks py settings stream clock db p)
    (hphase : p.phase = .receiving) {now now' : Instant} (hclock : (now, now') ∈ clock) :
    Tracks py settings stream clock db
      { p with
        windows := scoreOnTrade p.windows ⟨(stream.event p.reading).trade, now, now'⟩
        phase := .added (stream.event p.reading).cursor } := by
  rw [h.reading]
  have hsettled : p.phase.settled := by
    rw [hphase]
    trivial
  obtain ⟨origin, readings, hlineage⟩ := h.lineage hsettled
  refine ⟨h.cursor, rfl, fun wallet hwallet => ?_, origin, readings ++ [(now, now')], rfl,
    hlineage.begins, fun r hr => ?_, ?_, ?_⟩
  · exact Dictionary.mem_keys_set _ _ _ (h.known wallet hwallet)
  · rcases List.mem_append.mp hr with hr | hr
    · exact hlineage.reads r hr
    · obtain rfl := List.mem_singleton.mp hr
      exact hclock
  · rw [List.length_append, List.length_singleton, hlineage.position, Nat.add_assoc]
  · rw [callsFrom_concat, feed_concat, ← hlineage.position]
    exact scoreOnTrade_same hlineage.windows _

theorem Tracks.record {db : Database} {p : Process Rest} {eventCursor : String}
    (h : Tracks py settings stream clock db p) (hphase : p.phase = .added eventCursor) :
    Tracks py settings stream clock db
      { p with
        lastCursor := eventCursor
        position := p.reading + 1
        reading := p.reading + 1
        phase := .recorded eventCursor } := by
  rw [h.reading]
  obtain ⟨origin, readings, hwindows⟩ := h.windows
  simp only [hphase] at hwindows
  obtain ⟨rfl, hlineage⟩ := hwindows
  have hcovered : stream.covered (stream.event p.position).cursor = some (p.position + 1) :=
    (stream.covered_iff _ _).mpr ⟨p.position, rfl, rfl⟩
  exact ⟨fun n hn => Option.some.inj (hcovered.symm.trans hn), rfl, h.known, origin, readings,
    hlineage⟩

theorem Tracks.receive {db : Database} {p : Process Rest} (h : Tracks py settings stream clock db p)
    (hphase : p.phase.settled) (events : ℕ) (time : ℚ) :
    Tracks py settings stream clock db
      { p with phase := .receiving, eventsSinceFlush := events, lastFlushTime := time } := by
  obtain ⟨origin, readings, hlineage⟩ := h.lineage hphase
  exact ⟨h.cursor, h.reading, h.known, origin, readings, hlineage⟩

theorem Durable.processed {s : System Rest} (h : Durable py settings model stream clock s)
    {p : Process Rest} (hp : Tracks py settings stream clock s.db p)
    (hphase : p.phase.settled) (now : ℚ) (written : Bool) :
    Invariant py settings model stream clock (s.processed py settings model p now written) := by
  rw [System.processed]
  split_ifs
  · have hcommits : validateCursor py p.lastCursor ∧ written → p.phase.settled := fun _ => hphase
    obtain ⟨hflushed, hp'⟩ := h.flush hp hcommits
    exact hflushed.alive (hp'.receive hphase 0 now)
  · exact h.alive (hp.receive hphase _ p.lastFlushTime)

theorem Invariant.step {s t : System Rest} {l : Label}
    (h : Invariant py settings model stream clock s)
    (hstorable : ∀ i, Storable model (stream.event i).trade) (hcovered : Covered py stream s l)
    (hclock : ∀ now now', l = .add now now' → (now, now') ∈ clock)
    (hstep : Step py settings model stream s l t) : Invariant py settings model stream clock t := by
  cases hprocess : s.process with
  | none =>
    cases l with
    | start position now =>
      exact h.durable.start hstorable hcovered ((step_none_iff hprocess).mp hstep)
    | skip | add | record | processed | signal | finish | crash =>
      simp [Step, System.next, hprocess] at hstep
  | some p =>
    have hp : Tracks py settings stream clock s.db p := h.process p hprocess
    rw [step_some_iff hprocess] at hstep
    cases l with
    | start => cases hstep
    | skip => exact hcovered.elim
    | add now now' =>
      cases hphase : p.phase with
      | receiving =>
        simp only [System.stepProcess, hphase] at hstep
        split_ifs at hstep
        obtain rfl := Option.some.inj hstep
        exact h.durable.alive (hp.add hphase (hclock now now' rfl))
      | added | recorded => simp [System.stepProcess, hphase] at hstep
    | record =>
      cases hphase : p.phase with
      | added eventCursor =>
        simp only [System.stepProcess, hphase] at hstep
        obtain rfl := Option.some.inj hstep
        exact h.durable.alive (hp.record hphase)
      | receiving | recorded => simp [System.stepProcess, hphase] at hstep
    | processed now written =>
      cases hphase : p.phase with
      | recorded eventCursor =>
        simp only [System.stepProcess, hphase] at hstep
        obtain rfl := Option.some.inj hstep
        apply h.durable.processed hp
        rw [hphase]
        trivial
      | receiving | added => simp [System.stepProcess, hphase] at hstep
    | signal written =>
      obtain rfl := Option.some.inj hstep
      obtain ⟨hflushed, hp'⟩ := h.durable.flush hp (hcovered p hprocess)
      exact hflushed.alive ⟨hp'.cursor, hp'.reading, hp'.known, hp'.windows⟩
    | finish written =>
      cases hphase : p.phase with
      | receiving =>
        simp only [System.stepProcess, hphase] at hstep
        obtain rfl := Option.some.inj hstep
        refine (h.durable.flush hp fun _ => ?_).1.ended
        rw [hphase]
        trivial
      | added | recorded => simp [System.stepProcess, hphase] at hstep
    | crash =>
      obtain rfl := Option.some.inj hstep
      exact h.durable.ended

theorem step_deterministic (s : System Rest) (l : Label) (t t' : System Rest)
    (h : Step py settings model stream s l t) (h' : Step py settings model stream s l t') :
    t = t' :=
  Option.some.inj (h.symm.trans h')

theorem Uncrashed.windows {origin : ℕ} (horigin : Begins py settings stream origin)
    {readings : List (Instant × Instant)} {q : Process Rest}
    (h : Uncrashed py settings model stream origin readings q) :
    q.position = origin + readings.length ∧
      q.windows = feed (callsFrom stream origin readings) := by
  obtain ⟨t, hrun, hq⟩ := h
  obtain ⟨t', q', hrun', hq', -, -, -, hposition, hwindows⟩ :=
    alone_run model horigin readings
  obtain rfl := hrun.unique step_deterministic hrun'
  obtain rfl := Option.some.inj (hq.symm.trans hq')
  exact ⟨hposition, hwindows⟩

theorem sameView {origin : ℕ} {readings readings' : List (Instant × Instant)}
    (hlength : readings'.length = readings.length) {windows : RollingWindowState Rest}
    (hwindows : windows.Same (feed (callsFrom stream origin readings))) :
    SameView stream origin readings readings' windows
      (feed (callsFrom stream origin readings')) := by
  intro now hnow wallet hundisplaced hundisplaced' hours hhours
  rw [getWindow_same hwindows]
  refine getWindow_times_eq ?_ (fun c hc => ?_) (fun c hc => ?_) hundisplaced hundisplaced' hhours
  · rw [callsFrom_trades, callsFrom_trades, hlength]
  · exact hnow _ (List.mem_append_left _ (mem_callsFrom hc).2)
  · exact hnow _ (List.mem_append_right _ (mem_callsFrom hc).2)

theorem invariant_init (clock : Set (Instant × Instant)) :
    Invariant py settings model stream clock .init :=
  { durable :=
      { same := rfl
        valid := fun f hf => absurd hf (Option.not_mem_none f)
        cursor := fun f hf => absurd hf (Option.not_mem_none f)
        windows := fun f hf => absurd hf (Option.not_mem_none f) }
    process := fun p hp => absurd hp (Option.not_mem_none p) }

/-- In a run whose steps meet the condition, cursor and windows are durable together, and whenever
a process waits for a trade it has the windows of one that never crashed, reading the clock as the
run did. Whatever another one read while it handled the same trades, both show the same close
times. -/
theorem restored_as_uncrashed (hstorable : ∀ i, Storable model (stream.event i).trade)
    {labels : List Label} {s : System Rest}
    (hrun : Run (fun s l t => Step py settings model stream s l t ∧ Covered py stream s l) .init
      labels s) :
    SameFlush model s ∧ ∀ p ∈ s.process, p.phase = .receiving → ∃ origin readings,
      (∀ r ∈ readings, .add r.1 r.2 ∈ labels) ∧
      AsUncrashed py settings model stream origin readings p ∧
      ∀ readings', readings'.length = readings.length → ∃ q,
        Uncrashed py settings model stream origin readings' q ∧ q.position = p.position ∧
        SameView stream origin readings readings' p.windows q.windows := by
  let clock : Set (Instant × Instant) := { r | .add r.1 r.2 ∈ labels }
  have hlabels := hrun.restrict (G := fun _ l => l ∈ labels) fun before l after u hls _ => by
    rw [hls]
    exact List.mem_append_right _ List.mem_cons_self
  have hinvariant : Invariant py settings model stream clock s := by
    apply hlabels.invariant _ (invariant_init clock)
    rintro s l t h ⟨⟨hstep, hcovered⟩, hl⟩
    refine h.step hstorable hcovered (fun now now' hadd => ?_) hstep
    rw [hadd] at hl
    exact hl
  refine ⟨hinvariant.durable.same, fun p hp hphase => ?_⟩
  have hsettled : p.phase.settled := by
    rw [hphase]
    trivial
  obtain ⟨origin, readings, hlineage⟩ := (hinvariant.process p hp).lineage hsettled
  refine ⟨origin, readings, hlineage.reads, ?_, fun readings' hlength => ?_⟩
  · obtain ⟨t, q, hrun', hq, -, -, -, hposition, hwindows⟩ :=
      alone_run model hlineage.begins readings
    refine ⟨q, ⟨t, hrun', hq⟩, hposition.trans hlineage.position.symm, ?_⟩
    rw [hwindows]
    exact hlineage.windows
  · obtain ⟨t, q, hrun', hq, -, -, -, hposition, hwindows⟩ :=
      alone_run model hlineage.begins readings'
    refine ⟨q, ⟨t, hrun', hq⟩, ?_, ?_⟩
    · rw [hposition, hlength, hlineage.position]
    · rw [hwindows]
      exact sameView hlength hlineage.windows

end Steps

/-! ## A trade that is counted twice -/

def epochModel : TradeModel Unit where
  modelDump trade := .object (.ofList
    [("ledger_close_time", .string "1970-01-01T00:00:00Z"),
      ("base_account", .string trade.baseAccount)])
  construct
    | .object (.cons "ledger_close_time" (.string "1970-01-01T00:00:00Z")
        (.cons "base_account" (.string baseAccount) .nil)) =>
      some ⟨⟨0, some 0⟩, baseAccount, ()⟩
    | _ => none

def epochCursor (i : ℕ) : String := String.ofList ('1' :: '-' :: List.replicate (i + 1) '1')

theorem epochCursor_length (i : ℕ) : (epochCursor i).toList.length = i + 3 := by
  rw [epochCursor, String.toList_ofList, List.length_cons, List.length_cons, List.length_replicate]

def epochCovered (cursor : String) : Option ℕ :=
  let i := cursor.toList.length - 3
  if epochCursor i = cursor then some (i + 1) else none

def epochStream : Stream Unit where
  event i := ⟨⟨⟨0, some 0⟩, "GWALLET", ()⟩, epochCursor i⟩
  covered := epochCovered
  covered_iff cursor n := by
    simp only [epochCovered]
    constructor
    · intro h
      split_ifs at h with hcursor
      exact ⟨_, hcursor, (Option.some.inj h).symm⟩
    · rintro ⟨i, rfl, rfl⟩
      rw [epochCursor_length, Nat.add_sub_cancel, if_pos rfl]

def fromNow : Settings where
  horizonDefaultCursor := "now"
  legacy := none
  flushPolicy := ⟨1, 60, Int.one_pos, by decide⟩

/-- Where the process stands, and how many trades the window of its wallet has. -/
def standing (s : System Unit) : Option (ℕ × Phase × Option ℕ) :=
  s.process.map fun p =>
    (p.position, p.phase, (p.windows.get? "GWALLET").map fun w => w.trades.length)

/-- The second trade is lost with the process that added it and handled by the next one. -/
def replayed : List Label :=
  [.start 0 0, .add 0 0, .record, .processed 0 true, .add 1 1, .crash, .start 1 0,
    .add 2 2, .record, .processed 0 true]

theorem restored_as_uncrashed_replayed : ∃ s : System Unit,
    standing s = some (2, .receiving, some 2) ∧
    SameFlush epochModel s ∧ ∀ p ∈ s.process, p.phase = .receiving → ∃ origin readings,
      (∀ r ∈ readings, .add r.1 r.2 ∈ replayed) ∧
      AsUncrashed asciiBuiltins fromNow epochModel epochStream origin readings p ∧
      ∀ readings', readings'.length = readings.length → ∃ q,
        Uncrashed asciiBuiltins fromNow epochModel epochStream origin readings' q ∧
        q.position = p.position ∧
        SameView epochStream origin readings readings' p.windows q.windows := by
  have hrun : (replayed.foldlM (fun s l => if Covered asciiBuiltins epochStream s l then
      s.next asciiBuiltins fromNow epochModel epochStream l else none) .init).any
      (fun s => decide (standing s = some (2, .receiving, some 2))) = true := by
    decide +kernel
  obtain ⟨s, hs, hstanding⟩ := (Option.any_eq_true _ _).mp hrun
  have hstorable : ∀ i, Storable epochModel (epochStream.event i).trade := fun i => rfl
  exact ⟨s, of_decide_eq_true hstanding,
    restored_as_uncrashed hstorable (run_iff_foldlM.mpr hs)⟩

/-- The handler commits the windows of two trades with the cursor of the first, and the process is
killed before the next trade comes. -/
def interrupted : List Label :=
  [.start 0 0, .add 0 0, .record, .processed 0 true, .add 1 1, .signal true, .crash, .start 1 0,
    .add 2 2, .record, .processed 0 true]

theorem interrupted_counts_twice :
    ¬ ∀ (labels : List Label) (s : System Unit),
      Run (Step asciiBuiltins fromNow epochModel epochStream) .init labels s →
      SameFlush epochModel s ∧ ∀ p ∈ s.process, p.phase = .receiving → ∃ origin readings,
        AsUncrashed asciiBuiltins fromNow epochModel epochStream origin readings p := by
  intro h
  have hrun : (interrupted.foldlM (fun s l => if True then
      s.next asciiBuiltins fromNow epochModel epochStream l else none) .init).any
      (fun s => decide (standing s = some (2, .receiving, some 3))) = true := by
    decide +kernel
  obtain ⟨s, hs, hstanding⟩ := (Option.any_eq_true _ _).mp hrun
  obtain ⟨p, hp, hp'⟩ := Option.map_eq_some_iff.mp (of_decide_eq_true hstanding)
  obtain ⟨hposition, hrest⟩ := Prod.mk.inj hp'
  obtain ⟨hphase, hthree⟩ := Prod.mk.inj hrest
  obtain ⟨window, hwindow, hlength⟩ := Option.map_eq_some_iff.mp hthree
  have hreached := (run_iff_foldlM.mpr hs).mono fun _ _ _ hstep => hstep.1
  obtain ⟨-, huncrashed⟩ := h interrupted s hreached
  obtain ⟨origin, readings, q, hq, hsame, hwindows⟩ := huncrashed p hp hphase
  have hbegins : Begins asciiBuiltins fromNow epochStream origin := by
    have hnow : epochStream.covered (freshCursor asciiBuiltins fromNow) = none := by decide +kernel
    rw [Begins, hnow]
    exact fun n hn => absurd hn (Option.not_mem_none n)
  obtain ⟨hhandled, hfed⟩ := hq.windows hbegins
  rw [hwindows, hfed] at hwindow
  have hle := length_feed_le hwindow
  rw [callsFrom_length] at hle
  omega

end StreamCheckpoint
