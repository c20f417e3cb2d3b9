import LedgerLens.HistoricalChunks
import LedgerLens.LabelledRuns
import LedgerLens.SqlTables

/-!
# The parallel historical loader

`ParallelHistoricalLoader` of `ingestion/historical_loader.py`: the progress of the chunks by their
ids, the task of each chunk and the table of trades. The tasks of a call of `load` run interleaved,
and each may fail or be cancelled anywhere; the next call keeps the loader and with it the
deduplicator.
-/
namespace HistoricalLoader

open EventDedup HistoricalChunks HorizonTrades LabelledRuns SqlTables

/-! ## The loader -/

inductive ChunkStatus where
  | pending
  | inProgress
  | complete
  | failed
  deriving DecidableEq, Repr

/-- Where the task of a chunk stands. The trades of a page are registered once they are to be
upserted. -/
inductive Work where
  | idle
  | created
  | waiting
  | fetching (page : ℕ)
  | upserting (page : ℕ) (validated : List Trade) (reachedEnd : Bool)
  deriving DecidableEq

def Work.active : Work → Bool
  | .idle | .created => false
  | _ => true

def Work.holdsSemaphore : Work → Bool
  | .fetching _ | .upserting .. => true
  | _ => false

abbrev TradeTable := UniqueTable Trade fun a b => a.token = b.token

/-- `INSERT OR IGNORE`, the paging token being the key. -/
def upsertTrades (table : TradeTable) (trades : List Trade) : TradeTable :=
  trades.foldl UniqueTable.insertOrIgnore table

structure System (server : RedisServer) where
  redis : server.Data
  dedupStore : Option IdempotencyKeyStore
  progress : String → Option ChunkStatus
  work : ℕ → Work
  trades : TradeTable

/-- What the task of a chunk does next, or what befalls it. -/
inductive Event where
  | start
  | acquire
  | fail
  | receive (flaw : Option ℕ) (readings : List Readings)
  | upsert (stored : Bool)
  | cancel (stored : Bool)
  deriving DecidableEq

inductive Label where
  | load (resume : Bool)
  | task (i : ℕ) (event : Event)
  deriving DecidableEq

section Steps

variable {server : RedisServer} (py : Builtins) (r : Request) (horizon : Horizon)

namespace System

def init (ingestionDedupEnabled redisConnected : Bool) (redis : server.Data)
    (progress : String → Option ChunkStatus) (trades : TradeTable) : System server where
  redis := redis
  dedupStore := if ingestionDedupEnabled then some (.init 0 none redisConnected) else none
  progress := progress
  work _ := .idle
  trades := trades

def setWork (s : System server) (i : ℕ) (work : Work) : System server :=
  { s with work := Function.update s.work i work }

def mark (s : System server) (chunk : Chunk) (status : ChunkStatus) : System server :=
  { s with progress := Function.update s.progress (r.idOf chunk) (some status) }

def leave (s : System server) (i : ℕ) (chunk : Chunk) (status : ChunkStatus) : System server :=
  (s.mark r chunk status).setWork i .idle

/-- A chunk that is not skipped gets a task. -/
def load (s : System server) (resume : Bool) : System server :=
  { s with
    progress := fun id =>
      if s.progress id = none ∧ ∃ chunk ∈ r.chunks, r.idOf chunk = id then some .pending
      else s.progress id
    work := fun i =>
      match r.chunks[i]? with
      | none => .idle
      | some chunk =>
        if resume ∧ s.progress (r.idOf chunk) = some .complete then .idle else .created }

def advance (s : System server) (i : ℕ) (chunk : Chunk) (p : ℕ) (reachedEnd : Bool) :
    System server :=
  if reachedEnd ∨ ¬ (horizon.page chunk p).next then s.leave r i chunk .complete
  else s.setWork i (.fetching (p + 1))

def receive (s : System server) (i : ℕ) (chunk : Chunk) (p : ℕ) (records : List Record)
    (readings : List Readings) : System server :=
  if records = [] then s.leave r i chunk .complete
  else
    let out := Batch.processRecords py chunk ⟨s.dedupStore, s.redis, [], [], false⟩
      (records.zip readings)
    let s := { s with dedupStore := out.1.dedupStore, redis := out.1.redis }
    if ¬ out.2 then s.leave r i chunk .failed
    else if out.1.validated = [] then s.advance r horizon i chunk p out.1.reachedEnd
    else s.setWork i (.upserting p out.1.validated out.1.reachedEnd)

/-- The store has no `mark_seen`, so that a chunk fails after its upsert where the deduplication is
enabled. -/
def upsert (s : System server) (i : ℕ) (chunk : Chunk) (p : ℕ) (validated : List Trade)
    (reachedEnd stored : Bool) : System server :=
  if stored then
    let s := { s with trades := upsertTrades s.trades validated }
    if s.dedupStore.isSome then s.leave r i chunk .failed
    else s.advance r horizon i chunk p reachedEnd
  else s.leave r i chunk .failed

/-- The task ends without a new status. The thread of an upsert may still store its trades. -/
def cancel (s : System server) (i : ℕ) (stored : Bool) : System server :=
  match s.work i with
  | .upserting _ validated _ =>
    if stored then { s with trades := upsertTrades s.trades validated }.setWork i .idle
    else s.setWork i .idle
  | _ => s.setWork i .idle

def stepChunk (s : System server) (i : ℕ) (chunk : Chunk) : Event → Option (System server)
  | .start =>
    match s.work i with
    | .created =>
      let s := s.mark r chunk .inProgress
      if r.assetPair ≠ "" ∧ parseAssetPair r.assetPair = none then some (s.leave r i chunk .failed)
      else some (s.setWork i .waiting)
    | _ => none
  | .acquire =>
    match s.work i with
    | .waiting =>
      if (List.range r.chunks.length).countP (fun j => (s.work j).holdsSemaphore) < r.concurrency
      then some (s.setWork i (.fetching 0))
      else none
    | _ => none
  | .fail =>
    match s.work i with
    | .waiting | .fetching _ => some (s.leave r i chunk .failed)
    | _ => none
  | .receive flaw readings =>
    match s.work i with
    | .fetching p =>
      let records := received flaw (horizon.page chunk p).records
      if readings.length = records.length then
        some (s.receive py r horizon i chunk p records readings)
      else none
    | _ => none
  | .upsert stored =>
    match s.work i with
    | .upserting p validated reachedEnd =>
      some (s.upsert r horizon i chunk p validated reachedEnd stored)
    | _ => none
  | .cancel stored => if s.work i = .idle then none else some (s.cancel i stored)

/-- A call of `load` begins when the tasks of the one before have ended. -/
def next (s : System server) : Label → Option (System server)
  | .load resume =>
    if ∀ i < r.chunks.length, s.work i = .idle then some (s.load r resume) else none
  | .task i event => r.chunks[i]?.bind fun chunk => s.stepChunk py r horizon i chunk event

/-! ## What a step may lose -/

def Stored (s : System server) (trade : Trade) : Prop :=
  ∃ row ∈ s.trades.rows, row.token = trade.token

instance (s : System server) (trade : Trade) : Decidable (s.Stored trade) :=
  inferInstanceAs (Decidable (∃ row ∈ s.trades.rows, _))

def abandonedBy (s : System server) (i : ℕ) (chunk : Chunk) : Event → List Trade
  | .receive flaw _ =>
    match s.work i with
    | .fetching p =>
      let records := received flaw (horizon.page chunk p).records
      let raising := raises py s.dedupStore.isSome chunk
      if records.any raising then
        windowTrades chunk (records.takeWhile fun record => !raising record)
      else []
    | _ => []
  | .upsert false | .cancel false =>
    match s.work i with
    | .upserting _ validated _ => validated
    | _ => []
  | _ => []

def abandoned (s : System server) : Label → List Trade
  | .load _ => []
  | .task i event =>
    match r.chunks[i]? with
    | none => []
    | some chunk => s.abandonedBy py horizon i chunk event

/-- The condition on one step: with the deduplication enabled, the trades that it gives up are
stored already. -/
def Harmless (s : System server) (l : Label) : Prop :=
  s.dedupStore.isSome → ∀ trade ∈ s.abandoned py r horizon l, s.Stored trade

instance (s : System server) (l : Label) : Decidable (s.Harmless py r horizon l) :=
  inferInstanceAs (Decidable (_ → ∀ trade ∈ s.abandoned py r horizon l, _))

def HarmlessStep (s : System server) (l : Label) (t : System server) : Prop :=
  s.next py r horizon l = some t ∧ s.Harmless py r horizon l

def harmlessRun (s : System server) (ls : List Label) : Option (System server) :=
  ls.foldlM (fun s l => if s.Harmless py r horizon l then s.next py r horizon l else none) s

/-- No two trades of the range are registered under one key. -/
def DistinctKeys : Prop :=
  ∀ a ∈ horizon.trades, ∀ b ∈ horizon.trades, r.InRange a → r.InRange b →
    ∀ key, loaderKey py a = some key → loaderKey py b = some key → a = b

/-! ## The invariant -/

def Knows (s : System server) (key : Key) : Prop :=
  ∃ store ∈ s.dedupStore, store.Knows s.redis key

def Waiting (s : System server) (trade : Trade) : Prop :=
  ∃ i chunk p validated reachedEnd, r.chunks[i]? = some chunk ∧
    s.work i = .upserting p validated reachedEnd ∧ trade ∈ validated

def PagesStored (s : System server) (chunk : Chunk) (p : ℕ) : Prop :=
  ∀ q < p, ∀ trade ∈ windowTrades chunk (horizon.page chunk q).records, s.Stored trade

def EndsOn (chunk : Chunk) (p : ℕ) : Prop :=
  ∃ trade, .trade trade ∈ (horizon.page chunk p).records ∧ chunk.2 ≤ trade.ledgerCloseTime

def WorkDone (s : System server) (chunk : Chunk) : Work → Prop
  | .fetching p => s.PagesStored horizon chunk p
  | .upserting p validated reachedEnd => s.PagesStored horizon chunk p ∧
      (∀ trade ∈ validated, trade ∈ windowTrades chunk (horizon.page chunk p).records) ∧
      (∀ trade ∈ windowTrades chunk (horizon.page chunk p).records,
        trade ∈ validated ∨ s.Stored trade) ∧
      (reachedEnd → EndsOn horizon chunk p)
  | _ => True

structure Invariant (s : System server) : Prop where
  distinct : s.dedupStore.isSome → DistinctKeys py r horizon
  window : ∀ store ∈ s.dedupStore, store.replayWindowSeconds = 0
  registered : ∀ trade ∈ horizon.trades, r.InRange trade → ∀ key, loaderKey py trade = some key →
    s.Knows key → s.Stored trade ∨ s.Waiting r trade
  work : ∀ i chunk, r.chunks[i]? = some chunk → s.WorkDone horizon chunk (s.work i)
  active : ∀ i chunk, r.chunks[i]? = some chunk → (s.work i).active →
    s.progress (r.idOf chunk) = some .inProgress
  complete : ∀ chunk ∈ r.chunks, s.progress (r.idOf chunk) = some .complete →
    ∀ trade ∈ horizon.trades, InWindow chunk trade → s.Stored trade

variable {py r horizon}

section Keeping

variable {s t : System server} {i p : ℕ} {chunk : Chunk}

theorem stored_upsertTrades {trades : List Trade} {table : TradeTable} {token : String}
    (h : (∃ row ∈ table.rows, row.token = token) ∨ ∃ trade ∈ trades, trade.token = token) :
    ∃ row ∈ (upsertTrades table trades).rows, row.token = token := by
  induction trades generalizing table with
  | nil =>
    rcases h with h | ⟨trade, hmem, -⟩
    · exact h
    · exact absurd hmem List.not_mem_nil
  | cons trade rest ih =>
    rw [upsertTrades, List.foldl_cons]
    apply ih
    rcases h with ⟨row, hrow, htoken⟩ | ⟨other, hmem, htoken⟩
    · exact .inl ⟨row, UniqueTable.mem_insertOrIgnore_of_mem hrow, htoken⟩
    · rcases List.mem_cons.mp hmem with rfl | hrest
      · left
        cases hinsert : table.insert? other with
        | none =>
          obtain ⟨row, hrow, hclash⟩ := UniqueTable.insert?_eq_none.mp hinsert
          exact ⟨row, UniqueTable.mem_insertOrIgnore_of_mem hrow, hclash.trans htoken⟩
        | some table' =>
          refine ⟨other, ?_, htoken⟩
          rw [UniqueTable.insertOrIgnore, hinsert, Option.getD_some,
            (UniqueTable.insert?_eq_some hinsert).2]
          exact List.mem_append_right _ (List.mem_singleton.mpr rfl)
      · exact .inr ⟨other, hrest, htoken⟩

theorem WorkDone.mono {work : Work} (h : s.WorkDone horizon chunk work)
    (hstored : ∀ trade, s.Stored trade → t.Stored trade) : t.WorkDone horizon chunk work := by
  have hpages : ∀ {p}, s.PagesStored horizon chunk p → t.PagesStored horizon chunk p :=
    fun hp q hq trade htrade => hstored trade (hp q hq trade htrade)
  cases work with
  | fetching p => exact hpages h
  | upserting p validated reachedEnd =>
    obtain ⟨hp, hvalid, hcovered, hend⟩ := h
    exact ⟨hpages hp, hvalid, fun trade htrade => (hcovered trade htrade).imp_right (hstored trade),
      hend⟩
  | _ => trivial

theorem Invariant.setTrades (h : s.Invariant py r horizon) (validated : List Trade) :
    { s with trades := upsertTrades s.trades validated }.Invariant py r horizon := by
  have hstored : ∀ trade, s.Stored trade →
      { s with trades := upsertTrades s.trades validated }.Stored trade :=
    fun trade htrade => stored_upsertTrades (.inl htrade)
  exact
    { distinct := h.distinct
      window := h.window
      registered := fun trade htrade hrange key hkey hknows =>
        (h.registered trade htrade hrange key hkey hknows).imp_left (hstored trade)
      work := fun i chunk hi => (h.work i chunk hi).mono hstored
      active := h.active
      complete := fun chunk hchunk hcomplete trade htrade hwindow =>
        hstored trade (h.complete chunk hchunk hcomplete trade htrade hwindow) }

def Settled (s : System server) (i : ℕ) : Prop :=
  s.dedupStore.isSome → ∀ p validated reachedEnd, s.work i = .upserting p validated reachedEnd →
    ∀ trade ∈ validated, s.Stored trade

@[simp] theorem setWork_self (work : Work) : (s.setWork i work).work i = work :=
  Function.update_self ..

theorem setWork_of_ne {j : ℕ} (h : j ≠ i) (work : Work) : (s.setWork i work).work j = s.work j :=
  Function.update_of_ne h ..

theorem Invariant.setWork {work : Work} (h : s.Invariant py r horizon)
    (hi : r.chunks[i]? = some chunk) (hsettled : s.Settled i)
    (hwork : s.WorkDone horizon chunk work)
    (hactive : work.active → s.progress (r.idOf chunk) = some .inProgress) :
    (s.setWork i work).Invariant py r horizon := by
  constructor
  · exact h.distinct
  · exact h.window
  · intro trade htrade hrange key hkey hknows
    rcases h.registered trade htrade hrange key hkey hknows with
      hstored | ⟨j, chunk', p, validated, reachedEnd, hj, hupserting, hmem⟩
    · exact .inl hstored
    · by_cases hij : j = i
      · subst hij
        obtain ⟨store, hstore, -⟩ := hknows
        exact .inl (hsettled (Option.isSome_iff_exists.mpr ⟨store, hstore⟩) p validated reachedEnd
          hupserting trade hmem)
      · right
        exact ⟨j, chunk', p, validated, reachedEnd, hj, (setWork_of_ne hij work).trans hupserting,
          hmem⟩
  · intro j chunk' hj
    by_cases hij : j = i
    · subst hij
      obtain rfl : chunk = chunk' := Option.some.inj (hi.symm.trans hj)
      rw [setWork_self]
      exact hwork.mono fun _ => id
    · rw [setWork_of_ne hij]
      exact (h.work j chunk' hj).mono fun _ => id
  · intro j chunk' hj
    by_cases hij : j = i
    · subst hij
      obtain rfl : chunk = chunk' := Option.some.inj (hi.symm.trans hj)
      rw [setWork_self]
      exact hactive
    · rw [setWork_of_ne hij]
      exact h.active j chunk' hj
  · exact h.complete

/-- A chunk whose task is not active gets a status; ids of other chunks differ. -/
theorem Invariant.mark {status : ChunkStatus} (h : s.Invariant py r horizon)
    (hids : (r.chunks.map r.idOf).Nodup) (hi : r.chunks[i]? = some chunk)
    (hactive : (s.work i).active → status = .inProgress)
    (hcomplete : status = .complete →
      ∀ trade ∈ horizon.trades, InWindow chunk trade → s.Stored trade) :
    (s.mark r chunk status).Invariant py r horizon := by
  constructor
  · exact h.distinct
  · exact h.window
  · exact h.registered
  · intro j chunk' hj
    exact (h.work j chunk' hj).mono fun _ => id
  · intro j chunk' hj hactive'
    by_cases hij : j = i
    · subst hij
      obtain rfl : chunk = chunk' := Option.some.inj (hi.symm.trans hj)
      obtain rfl := hactive hactive'
      exact Function.update_self ..
    · have hne : r.idOf chunk' ≠ r.idOf chunk := by
        intro heq
        obtain rfl : chunk' = chunk := List.inj_on_of_nodup_map hids (List.mem_of_getElem? hj)
          (List.mem_of_getElem? hi) heq
        obtain ⟨hilt, hichunk⟩ := List.getElem?_eq_some_iff.mp hi
        obtain ⟨hjlt, hjchunk⟩ := List.getElem?_eq_some_iff.mp hj
        apply hij
        exact (List.Nodup.getElem_inj_iff hids.of_map).mp (hjchunk.trans hichunk.symm)
      exact (Function.update_of_ne hne ..).trans (h.active j chunk' hj hactive')
  · intro chunk' hchunk' hstatus trade htrade hwindow
    by_cases hid : r.idOf chunk' = r.idOf chunk
    · obtain rfl : chunk' = chunk :=
        List.inj_on_of_nodup_map hids hchunk' (List.mem_of_getElem? hi) hid
      have hnew : status = .complete := by simpa [System.mark] using hstatus
      exact hcomplete hnew trade htrade hwindow
    · apply h.complete chunk' hchunk' _ trade htrade hwindow
      exact (Function.update_of_ne hid ..).symm.trans hstatus

theorem Invariant.leave {status : ChunkStatus} (h : s.Invariant py r horizon)
    (hids : (r.chunks.map r.idOf).Nodup) (hi : r.chunks[i]? = some chunk) (hsettled : s.Settled i)
    (hcomplete : status = .complete →
      ∀ trade ∈ horizon.trades, InWindow chunk trade → s.Stored trade) :
    (s.leave r i chunk status).Invariant py r horizon := by
  have hidle : (s.setWork i .idle).Invariant py r horizon :=
    h.setWork hi hsettled trivial (by simp [Work.active])
  apply hidle.mark hids hi
  · simp [Work.active]
  · exact hcomplete

theorem settled_of_ne (h : ∀ p validated reachedEnd, s.work i ≠ .upserting p validated reachedEnd) :
    s.Settled i :=
  fun _ p validated reachedEnd hwork => absurd hwork (h p validated reachedEnd)

theorem stored_of_pages (hpages : s.PagesStored horizon chunk p)
    (hend : ∀ q trade, p ≤ q → (∀ q' < q, (horizon.page chunk q').records ≠ [] ∧
      (horizon.page chunk q').next) → trade ∉ windowTrades chunk (horizon.page chunk q).records)
    (trade : Trade) (htrade : trade ∈ horizon.trades) (hwindow : InWindow chunk trade) :
    s.Stored trade := by
  obtain ⟨q, hmem, hbefore⟩ := horizon.complete chunk trade htrade hwindow
  have hpage : trade ∈ windowTrades chunk (horizon.page chunk q).records :=
    mem_windowTrades.mpr ⟨hmem, hwindow⟩
  by_cases hq : q < p
  · exact hpages q hq trade hpage
  · exact absurd hpage (hend q trade (not_lt.mp hq) hbefore)

theorem Invariant.advance {reachedEnd : Bool} (h : s.Invariant py r horizon)
    (hids : (r.chunks.map r.idOf).Nodup) (hi : r.chunks[i]? = some chunk) (hsettled : s.Settled i)
    (hactive : s.progress (r.idOf chunk) = some .inProgress)
    (hpages : s.PagesStored horizon chunk (p + 1)) (hend : reachedEnd → EndsOn horizon chunk p) :
    (s.advance r horizon i chunk p reachedEnd).Invariant py r horizon := by
  rw [System.advance]
  by_cases hlast : reachedEnd ∨ ¬ (horizon.page chunk p).next
  · rw [if_pos hlast]
    apply h.leave hids hi hsettled
    rintro -
    apply stored_of_pages hpages
    intro q trade hq hbefore hpage
    obtain ⟨hmem, hwindow⟩ := mem_windowTrades.mp hpage
    rcases hlast with hreached | hnext
    · obtain ⟨late, hlate, hstop⟩ := hend hreached
      have hle := horizon.ordered chunk p q late trade hq hlate hmem
      exact absurd (hstop.trans hle) (not_le.mpr hwindow.2)
    · exact hnext (hbefore p hq).2
  · rw [if_neg hlast]
    exact h.setWork hi hsettled hpages fun _ => hactive

theorem Invariant.register {dedupStore : Option IdempotencyKeyStore} {redis : server.Data}
    (h : s.Invariant py r horizon) (henabled : dedupStore.isSome = s.dedupStore.isSome)
    (hwindow : ∀ store ∈ dedupStore, store.replayWindowSeconds = 0)
    (hknown : ∀ trade ∈ horizon.trades, r.InRange trade → ∀ key, loaderKey py trade = some key →
      { s with dedupStore := dedupStore, redis := redis }.Knows key →
      s.Knows key ∨ s.Stored trade ∨ s.Waiting r trade) :
    { s with dedupStore := dedupStore, redis := redis }.Invariant py r horizon := by
  constructor
  · intro hsome
    apply h.distinct
    rwa [← henabled]
  · exact hwindow
  · intro trade htrade hrange key hkey hknows
    rcases hknown trade htrade hrange key hkey hknows with hold | hnew
    · exact h.registered trade htrade hrange key hkey hold
    · exact hnew
  · intro j chunk' hj
    exact (h.work j chunk' hj).mono fun _ => id
  · exact h.active
  · exact h.complete

end Keeping

/-! ## The steps -/

section Tasks

variable {s t : System server} {i p : ℕ} {chunk : Chunk}

theorem batch_spec {s : System server} {records : List Record} {readings : List Readings}
    (h : s.Invariant py r horizon) (hlength : readings.length = records.length) :
    let start : Batch server := ⟨s.dedupStore, s.redis, [], [], false⟩
    let out := start.processRecords py chunk (records.zip readings)
    let raising := raises py s.dedupStore.isSome chunk
    start.Invariant py chunk (records.takeWhile fun record => !raising record) out.1 ∧
      (out.2 ↔ ∀ record ∈ records, ¬ raising record) := by
  intro start out raising
  have hstart : start.Invariant py chunk [] start := by
    constructor
    · rfl
    · exact h.window
    · exact fun key hkey => .inl hkey
    all_goals simp [start, windowTrades]
  have hspec :=
    @Batch.processRecords_spec server py chunk start start [] (records.zip readings) hstart
  rwa [List.map_fst_zip hlength.ge, List.nil_append] at hspec

theorem mem_trades {flaw : Option ℕ} {records : List Record} {trade : Trade}
    (hrecords : records ⊆ received flaw (horizon.page chunk p).records)
    (h : trade ∈ windowTrades chunk records) : trade ∈ horizon.trades :=
  horizon.sound chunk p trade (mem_of_mem_received (hrecords (mem_windowTrades.mp h).1))

theorem validated_or_stored {records : List Record} {flaw : Option ℕ} {start b : Batch server}
    (h : s.Invariant py r horizon) (hi : r.chunks[i]? = some chunk)
    (hwork : s.work i = .fetching p) (hstore : start.dedupStore = s.dedupStore)
    (hknows : ∀ key, start.Knows key → s.Knows key)
    (hrecords : records ⊆ received flaw (horizon.page chunk p).records)
    (hb : start.Invariant py chunk records b) (trade : Trade)
    (htrade : trade ∈ windowTrades chunk records) : trade ∈ b.validated ∨ s.Stored trade := by
  have hrange : ∀ other ∈ windowTrades chunk records, r.InRange other := fun other hother =>
    Request.inRange_of_inWindow (List.mem_of_getElem? hi) (mem_windowTrades.mp hother).2
  rcases hb.covered trade htrade with
    hvalid | ⟨hsome, key, hkey, hknown | ⟨other, hother, hotherKey⟩⟩
  · exact .inl hvalid
  · right
    rcases h.registered trade (mem_trades hrecords htrade) (hrange trade htrade) key hkey
      (hknows key hknown) with hstored | ⟨j, chunk', q, validated, reachedEnd, hj, hupserting, hmem⟩
    · exact hstored
    · -- Another task has the trade: then its chunk would be this one.
      have hdone := h.work j chunk' hj
      rw [hupserting] at hdone
      have hwindow' := (mem_windowTrades.mp (hdone.2.1 trade hmem)).2
      obtain rfl := Request.chunk_unique hi hj (mem_windowTrades.mp htrade).2 hwindow'
      rw [hwork] at hupserting
      cases hupserting
  · left
    rw [hstore] at hsome
    have hotherMem := hb.validated other hother
    obtain rfl := h.distinct hsome trade (mem_trades hrecords htrade) other
      (mem_trades hrecords hotherMem) (hrange trade htrade) (hrange other hotherMem) key hkey
      hotherKey
    exact hother

theorem knows_or_validated {records : List Record} {flaw : Option ℕ} {start b : Batch server}
    (h : s.Invariant py r horizon) (hi : r.chunks[i]? = some chunk)
    (hstore : start.dedupStore = s.dedupStore) (hknows : ∀ key, start.Knows key → s.Knows key)
    (hrecords : records ⊆ received flaw (horizon.page chunk p).records)
    (hb : start.Invariant py chunk records b) {trade : Trade} (htrade : trade ∈ horizon.trades)
    (hrange : r.InRange trade) {key : String} (hkey : loaderKey py trade = some key)
    (hnow : b.Knows key) : s.Knows key ∨ s.dedupStore.isSome ∧ trade ∈ b.validated := by
  rcases hb.registered key hnow with hbefore | ⟨other, hother, hotherKey⟩
  · exact .inl (hknows key hbefore)
  · right
    have hsome : s.dedupStore.isSome := by
      obtain ⟨store, hfound, -⟩ := hnow
      rw [← hstore, ← hb.enabled]
      exact Option.isSome_iff_exists.mpr ⟨store, hfound⟩
    have hotherMem := hb.validated other hother
    have hotherWindow := (mem_windowTrades.mp hotherMem).2
    obtain rfl := h.distinct hsome trade htrade other (mem_trades hrecords hotherMem) hrange
      (Request.inRange_of_inWindow (List.mem_of_getElem? hi) hotherWindow) key hkey hotherKey
    exact ⟨hsome, hother⟩

theorem Invariant.receive {flaw : Option ℕ} {readings : List Readings}
    (h : s.Invariant py r horizon) (hids : (r.chunks.map r.idOf).Nodup)
    (hi : r.chunks[i]? = some chunk) (hwork : s.work i = .fetching p)
    (hlength : readings.length = (received flaw (horizon.page chunk p).records).length)
    (hharmless : s.dedupStore.isSome →
      ∀ trade ∈ s.abandonedBy py horizon i chunk (.receive flaw readings), s.Stored trade) :
    (s.receive py r horizon i chunk p (received flaw (horizon.page chunk p).records)
      readings).Invariant py r horizon := by
  have hsettled : s.Settled i := settled_of_ne (by simp [hwork])
  have hpages : s.PagesStored horizon chunk p := by
    have hdone := h.work i chunk hi
    rwa [hwork] at hdone
  have hactive : s.progress (r.idOf chunk) = some .inProgress :=
    h.active i chunk hi (by rw [hwork]; rfl)
  obtain ⟨hbatch, hok⟩ := batch_spec h hlength
  simp only [abandonedBy, hwork] at hharmless
  set records := received flaw (horizon.page chunk p).records with hrecords
  set raising := raises py s.dedupStore.isSome chunk
  set out := Batch.processRecords py chunk ⟨s.dedupStore, s.redis, [], [], false⟩
    (records.zip readings)
  set s' : System server := { s with dedupStore := out.1.dedupStore, redis := out.1.redis }
  have hknown : ∀ trade ∈ horizon.trades, r.InRange trade → ∀ key, loaderKey py trade = some key →
      s'.Knows key → s.Knows key ∨ s.dedupStore.isSome ∧ trade ∈ out.1.validated :=
    fun trade htrade hrange key hkey hknows => knows_or_validated h hi rfl (fun _ => id)
      (List.takeWhile_subset _) hbatch htrade hrange hkey hknows
  rw [System.receive]
  by_cases hnil : records = []
  · rw [if_pos hnil]
    apply h.leave hids hi hsettled
    rintro -
    apply stored_of_pages hpages
    intro q trade hq hbefore hpage
    have hempty : (horizon.page chunk p).records = [] := received_eq_nil.mp hnil
    rcases hq.eq_or_lt with rfl | hlt
    · simp [hempty, windowTrades] at hpage
    · exact (hbefore p hlt).1 hempty
  · rw [if_neg hnil]
    simp only
    by_cases hgoes : out.2
    · have hnone := hok.mp hgoes
      have hall : (records.takeWhile fun record => !raising record) = records :=
        List.takeWhile_eq_self_iff.mpr fun record hmem => by simpa using hnone record hmem
      have hsent : records = (horizon.page chunk p).records :=
        received_eq fun record hmem heq => hnone record hmem (by rw [heq]; rfl)
      rw [hall] at hbatch
      have hcovered : ∀ trade ∈ windowTrades chunk (horizon.page chunk p).records,
          trade ∈ out.1.validated ∨ s.Stored trade := by
        rw [← hsent]
        exact validated_or_stored h hi hwork rfl (fun _ => id) (List.Subset.refl records) hbatch
      have hend : out.1.reachedEnd → EndsOn horizon chunk p := by
        rw [EndsOn, ← hsent]
        exact hbatch.reachedEnd
      rw [if_neg (not_not_intro hgoes)]
      by_cases hvalidated : out.1.validated = []
      · rw [if_pos hvalidated]
        have hregistered : s'.Invariant py r horizon := by
          apply h.register hbatch.enabled hbatch.window
          intro trade htrade hrange key hkey hknows
          rcases hknown trade htrade hrange key hkey hknows with hbefore | ⟨-, hmem⟩
          · exact .inl hbefore
          · simp [hvalidated] at hmem
        refine hregistered.advance hids hi (settled_of_ne (by simp [s', hwork])) hactive ?_ hend
        intro q hq trade hpage
        rcases Nat.lt_succ_iff_lt_or_eq.mp hq with hlt | rfl
        · exact hpages q hlt trade hpage
        · exact (hcovered trade hpage).resolve_left (by simp [hvalidated])
      · rw [if_neg hvalidated]
        have hupserting : (s.setWork i (.upserting p out.1.validated out.1.reachedEnd)).Invariant
            py r horizon := by
          apply h.setWork hi hsettled _ fun _ => hactive
          exact ⟨hpages, hsent ▸ hbatch.validated, hcovered, hend⟩
        refine hupserting.register hbatch.enabled hbatch.window ?_
        intro trade htrade hrange key hkey hknows
        rcases hknown trade htrade hrange key hkey hknows with hbefore | ⟨-, hmem⟩
        · exact .inl hbefore
        · right
          right
          exact ⟨i, chunk, p, out.1.validated, out.1.reachedEnd, hi, setWork_self _, hmem⟩
    · rw [if_pos hgoes]
      have hraises : records.any raising := by
        by_contra hnone
        apply hgoes
        apply hok.mpr
        simpa using hnone
      rw [if_pos hraises] at hharmless
      have hregistered : s'.Invariant py r horizon := by
        apply h.register hbatch.enabled hbatch.window
        intro trade htrade hrange key hkey hknows
        rcases hknown trade htrade hrange key hkey hknows with hbefore | ⟨hsome, hmem⟩
        · exact .inl hbefore
        · exact .inr (.inl (hharmless hsome trade (hbatch.validated trade hmem)))
      exact hregistered.leave hids hi (settled_of_ne (by simp [s', hwork])) (by simp)

theorem Invariant.upsert {validated : List Trade} {reachedEnd stored : Bool}
    (h : s.Invariant py r horizon) (hids : (r.chunks.map r.idOf).Nodup)
    (hi : r.chunks[i]? = some chunk) (hwork : s.work i = .upserting p validated reachedEnd)
    (hharmless : s.dedupStore.isSome →
      ∀ trade ∈ s.abandonedBy py horizon i chunk (.upsert stored), s.Stored trade) :
    (s.upsert r horizon i chunk p validated reachedEnd stored).Invariant py r horizon := by
  have hdone := h.work i chunk hi
  have hactive := h.active i chunk hi
  rw [hwork] at hdone hactive
  obtain ⟨hpages, -, hcovered, hend⟩ := hdone
  rw [System.upsert]
  cases stored with
  | true =>
    rw [if_pos rfl]
    have hvalidated : ∀ trade ∈ validated,
        { s with trades := upsertTrades s.trades validated }.Stored trade :=
      fun trade hmem => stored_upsertTrades (.inr ⟨trade, hmem, rfl⟩)
    have hsettled : { s with trades := upsertTrades s.trades validated }.Settled i := by
      intro _ q validated' reachedEnd' hwork' trade hmem
      obtain ⟨-, rfl, -⟩ := Work.upserting.inj (hwork.symm.trans hwork')
      exact hvalidated trade hmem
    simp only
    by_cases henabled : s.dedupStore.isSome
    · rw [if_pos henabled]
      exact (h.setTrades validated).leave hids hi hsettled (by simp)
    · rw [if_neg henabled]
      apply (h.setTrades validated).advance hids hi hsettled (hactive rfl) _ hend
      intro q hq trade hpage
      rcases Nat.lt_succ_iff_lt_or_eq.mp hq with hlt | rfl
      · exact stored_upsertTrades (.inl (hpages q hlt trade hpage))
      · rcases hcovered trade hpage with hmem | hstored
        · exact hvalidated trade hmem
        · exact stored_upsertTrades (.inl hstored)
  | false =>
    rw [if_neg Bool.false_ne_true]
    apply h.leave hids hi _ (by simp)
    intro hsome q validated' reachedEnd' hwork' trade hmem
    obtain ⟨-, rfl, -⟩ := Work.upserting.inj (hwork.symm.trans hwork')
    apply hharmless hsome trade
    simpa [abandonedBy, hwork] using hmem

theorem Invariant.cancel {stored : Bool} (h : s.Invariant py r horizon)
    (hi : r.chunks[i]? = some chunk)
    (hharmless : s.dedupStore.isSome →
      ∀ trade ∈ s.abandonedBy py horizon i chunk (.cancel stored), s.Stored trade) :
    (s.cancel i stored).Invariant py r horizon := by
  rw [System.cancel]
  cases hwork : s.work i with
  | upserting p validated reachedEnd =>
    simp only
    cases stored with
    | true =>
      rw [if_pos rfl]
      refine (h.setTrades validated).setWork hi ?_ trivial (by simp [Work.active])
      intro _ q validated' reachedEnd' hwork' trade hmem
      obtain ⟨-, rfl, -⟩ := Work.upserting.inj (hwork.symm.trans hwork')
      exact stored_upsertTrades (.inr ⟨trade, hmem, rfl⟩)
    | false =>
      rw [if_neg Bool.false_ne_true]
      refine h.setWork hi ?_ trivial (by simp [Work.active])
      intro hsome q validated' reachedEnd' hwork' trade hmem
      obtain ⟨-, rfl, -⟩ := Work.upserting.inj (hwork.symm.trans hwork')
      apply hharmless hsome trade
      simpa [abandonedBy, hwork] using hmem
  | _ => exact h.setWork hi (settled_of_ne (by simp [hwork])) trivial (by simp [Work.active])

theorem Invariant.stepChunk {event : Event} (h : s.Invariant py r horizon)
    (hids : (r.chunks.map r.idOf).Nodup) (hi : r.chunks[i]? = some chunk)
    (hharmless : s.dedupStore.isSome →
      ∀ trade ∈ s.abandonedBy py horizon i chunk event, s.Stored trade)
    (hstep : s.stepChunk py r horizon i chunk event = some t) : t.Invariant py r horizon := by
  cases event with
  | start =>
    cases hwork : s.work i with
    | created =>
      have hmark : (s.mark r chunk .inProgress).Invariant py r horizon :=
        h.mark hids hi (fun _ => rfl) (by simp)
      have hsettled : (s.mark r chunk .inProgress).Settled i :=
        settled_of_ne (by simp [System.mark, hwork])
      simp only [System.stepChunk, hwork] at hstep
      by_cases hpair : r.assetPair ≠ "" ∧ parseAssetPair r.assetPair = none
      · rw [if_pos hpair] at hstep
        obtain rfl := Option.some.inj hstep
        exact hmark.leave hids hi hsettled (by simp)
      · rw [if_neg hpair] at hstep
        obtain rfl := Option.some.inj hstep
        exact hmark.setWork hi hsettled trivial fun _ => Function.update_self ..
    | _ => simp [System.stepChunk, hwork] at hstep
  | acquire =>
    cases hwork : s.work i with
    | waiting =>
      simp only [System.stepChunk, hwork, Option.ite_none_right_eq_some, Option.some.injEq] at hstep
      obtain ⟨-, rfl⟩ := hstep
      apply h.setWork hi (settled_of_ne (by simp [hwork])) _ fun _ =>
        h.active i chunk hi (by rw [hwork]; rfl)
      exact fun q hq => absurd hq (Nat.not_lt_zero q)
    | _ => simp [System.stepChunk, hwork] at hstep
  | fail =>
    cases hwork : s.work i with
    | waiting | fetching p =>
      simp only [System.stepChunk, hwork, Option.some.injEq] at hstep
      subst hstep
      exact h.leave hids hi (settled_of_ne (by simp [hwork])) (by simp)
    | _ => simp [System.stepChunk, hwork] at hstep
  | receive flaw readings =>
    cases hwork : s.work i with
    | fetching p =>
      simp only [System.stepChunk, hwork, Option.ite_none_right_eq_some, Option.some.injEq] at hstep
      obtain ⟨hlength, rfl⟩ := hstep
      exact h.receive hids hi hwork hlength hharmless
    | _ => simp [System.stepChunk, hwork] at hstep
  | upsert stored =>
    cases hwork : s.work i with
    | upserting p validated reachedEnd =>
      simp only [System.stepChunk, hwork, Option.some.injEq] at hstep
      subst hstep
      exact h.upsert hids hi hwork hharmless
    | _ => simp [System.stepChunk, hwork] at hstep
  | cancel stored =>
    by_cases hidle : s.work i = .idle
    · simp [System.stepChunk, hidle] at hstep
    · simp only [System.stepChunk, if_neg hidle, Option.some.injEq] at hstep
      subst hstep
      exact h.cancel hi hharmless

end Tasks

theorem Invariant.load {s : System server} {resume : Bool} (h : s.Invariant py r horizon)
    (hidle : ∀ i < r.chunks.length, s.work i = .idle) :
    (s.load r resume).Invariant py r horizon := by
  have hnotActive : ∀ i,
      (s.load r resume).work i = .idle ∨ (s.load r resume).work i = .created := by
    intro i
    simp only [System.load]
    cases r.chunks[i]? with
    | none => exact .inl rfl
    | some chunk =>
      by_cases hskip : resume ∧ s.progress (r.idOf chunk) = some .complete
      · exact .inl (if_pos hskip)
      · exact .inr (if_neg hskip)
  constructor
  · exact h.distinct
  · exact h.window
  · intro trade htrade hrange key hkey hknows
    rcases h.registered trade htrade hrange key hkey hknows with
      hstored | ⟨i, chunk, p, validated, reachedEnd, hi, hupserting, -⟩
    · exact .inl hstored
    · obtain ⟨hlt, -⟩ := List.getElem?_eq_some_iff.mp hi
      cases (hidle i hlt).symm.trans hupserting
  · intro i chunk _
    rcases hnotActive i with hwork | hwork
    · rw [hwork]
      trivial
    · rw [hwork]
      trivial
  · intro i chunk _ hactive
    rcases hnotActive i with hwork | hwork
    · simp [hwork, Work.active] at hactive
    · simp [hwork, Work.active] at hactive
  · intro chunk hchunk hcomplete
    apply h.complete chunk hchunk
    simp only [System.load] at hcomplete
    by_cases hpending : s.progress (r.idOf chunk) = none ∧
        ∃ other ∈ r.chunks, r.idOf other = r.idOf chunk
    · rw [if_pos hpending] at hcomplete
      cases hcomplete
    · rwa [if_neg hpending] at hcomplete

theorem Invariant.harmlessStep {s t : System server} {l : Label} (h : s.Invariant py r horizon)
    (hids : (r.chunks.map r.idOf).Nodup) (hstep : s.HarmlessStep py r horizon l t) :
    t.Invariant py r horizon := by
  obtain ⟨hnext, hharmless⟩ := hstep
  cases l with
  | load resume =>
    obtain ⟨hidle, heq⟩ := Option.ite_none_right_eq_some.mp hnext
    obtain rfl := Option.some.inj heq
    exact h.load hidle
  | task i event =>
    obtain ⟨chunk, hi, hevent⟩ := Option.bind_eq_some_iff.mp hnext
    apply h.stepChunk hids hi _ hevent
    intro hsome trade htrade
    apply hharmless hsome trade
    rwa [abandoned, hi]

variable (py r horizon) in
/-- Before any call of `load`: no task, no chunk of the range complete, and no trade of the range
registered. -/
structure Fresh (s : System server) : Prop where
  window : ∀ store ∈ s.dedupStore, store.replayWindowSeconds = 0
  idle : ∀ i, s.work i = .idle
  incomplete : ∀ chunk ∈ r.chunks, s.progress (r.idOf chunk) ≠ some .complete
  unregistered : ∀ trade ∈ horizon.trades, r.InRange trade → ∀ key, loaderKey py trade = some key →
    ¬ s.Knows key

theorem Fresh.invariant {s : System server} (h : s.Fresh py r horizon)
    (hkeys : s.dedupStore.isSome → DistinctKeys py r horizon) : s.Invariant py r horizon where
  distinct := hkeys
  window := h.window
  registered trade htrade hrange key hkey hknows :=
    absurd hknows (h.unregistered trade htrade hrange key hkey)
  work i chunk _ := by
    rw [h.idle i]
    trivial
  active i chunk _ hactive := by simp [h.idle i, Work.active] at hactive
  complete chunk hchunk hcomplete := absurd hcomplete (h.incomplete chunk hchunk)

theorem init_fresh {ingestionDedupEnabled redisConnected : Bool} {redis : server.Data}
    {progress : String → Option ChunkStatus} {trades : TradeTable}
    (hprogress : ∀ chunk ∈ r.chunks, progress (r.idOf chunk) ≠ some .complete)
    (hredis : ∀ trade ∈ horizon.trades, r.InRange trade → ∀ key, loaderKey py trade = some key →
      ¬ ∃ t, server.Exists redis (DEDUP_REDIS_PREFIX ++ key) t) :
    (init ingestionDedupEnabled redisConnected redis progress trades).Fresh py r horizon where
  window := by
    cases ingestionDedupEnabled with
    | true =>
      rintro _ ⟨⟩
      rfl
    | false => rintro _ ⟨⟩
  idle _ := rfl
  incomplete := hprogress
  unregistered := by
    rintro trade htrade hrange key hkey ⟨store, hstore, hknows⟩
    cases ingestionDedupEnabled with
    | true =>
      cases hstore
      exact hredis trade htrade hrange key hkey (IdempotencyKeyStore.exists_of_knows_init hknows)
    | false => cases hstore

/-- In every run of calls of `load` whose steps meet the condition, over a range whose chunks have
distinct ids and whose trades have distinct keys, each trade of a complete chunk is stored; with
all of the chunks complete, each trade of the range. -/
theorem every_trade_upserted {s t : System server} {ls : List Label}
    (hids : (r.chunks.map r.idOf).Nodup)
    (hkeys : s.dedupStore.isSome → DistinctKeys py r horizon) (hfresh : s.Fresh py r horizon)
    (hrun : Run (HarmlessStep py r horizon) s ls t)
    (hcomplete : ∀ chunk ∈ r.chunks, t.progress (r.idOf chunk) = some .complete) (trade : Trade)
    (htrade : trade ∈ horizon.trades) (hrange : r.InRange trade) : t.Stored trade := by
  have hinv : t.Invariant py r horizon :=
    hrun.invariant (fun u l v hu hstep => hu.harmlessStep hids hstep) (hfresh.invariant hkeys)
  obtain ⟨chunk, hchunk, hwindow⟩ := Request.exists_chunk hrange
  exact hinv.complete chunk hchunk (hcomplete chunk hchunk) trade htrade hwindow

end System

end Steps

/-! ## One chunk with one trade -/

def hourRequest : Request where
  historicalMaxLookbackDays := 90
  concurrency := 4
  start := 0
  stop := 3600
  step := 3600
  assetPair := ""
  concurrency_pos := by decide
  step_pos := by norm_num
  valid := by decide +kernel

def loneHorizon : Horizon where
  trades := [loneTrade]
  page chunk p :=
    if p = 0 ∧ InWindow chunk loneTrade then ⟨[.trade loneTrade], true⟩ else ⟨[], false⟩
  complete := by
    intro chunk trade htrade hwindow
    obtain rfl := List.mem_singleton.mp htrade
    refine ⟨0, ?_, fun q hq => absurd hq (Nat.not_lt_zero q)⟩
    rw [if_pos ⟨rfl, hwindow⟩]
    exact List.mem_singleton.mpr rfl
  sound := by
    intro chunk p trade hmem
    by_cases hpage : p = 0 ∧ InWindow chunk loneTrade
    · rw [if_pos hpage] at hmem
      simpa using hmem
    · simp [if_neg hpage] at hmem
  ordered := by
    intro chunk p q a b hlt _ hmem
    have hq : ¬ (q = 0 ∧ InWindow chunk loneTrade) := fun h => by omega
    simp [if_neg hq] at hmem

def newLoader : System expiringKeys :=
  .init true true ([] : List (String × ℚ)) (fun _ => none) .empty

/-- A call of `load` over the one chunk, up to its upsert. -/
def loadLabels (stored : Bool) (time : ℚ) : List Label :=
  [.load true, .task 0 .start, .task 0 .acquire, .task 0 (.receive none [answeredAt time]),
    .task 0 (.upsert stored)]

/-- A call that finds the trade registered. -/
def resumeLabels (time : ℚ) : List Label :=
  [.load true, .task 0 .start, .task 0 .acquire, .task 0 (.receive none [answeredAt time]),
    .task 0 (.receive none [])]

namespace System

theorem newLoader_fresh : newLoader.Fresh asciiBuiltins hourRequest loneHorizon := by
  apply init_fresh
  · simp
  · rintro trade - - key - ⟨t, hexists⟩
    simp [expiringKeys, existsAt] at hexists

/-- The upsert succeeds, `mark_seen` fails the chunk, and the next call completes it. -/
theorem lone_trade_upserted :
    ∃ t, newLoader.harmlessRun asciiBuiltins hourRequest loneHorizon
        (loadLabels true 1001 ++ resumeLabels 1002) = some t ∧ t.Stored loneTrade := by
  have hends : (newLoader.harmlessRun asciiBuiltins hourRequest loneHorizon
      (loadLabels true 1001 ++ resumeLabels 1002)).map (fun t => hourRequest.chunks.all fun chunk =>
        t.progress (hourRequest.idOf chunk) = some .complete) = some true := by
    decide +kernel
  obtain ⟨t, ht, hcomplete⟩ := Option.map_eq_some_iff.mp hends
  refine ⟨t, ht, ?_⟩
  apply every_trade_upserted (by decide +kernel) _ newLoader_fresh (run_iff_foldlM.mpr ht)
  · intro chunk hchunk
    simpa using List.all_eq_true.mp hcomplete chunk hchunk
  · exact List.mem_singleton.mpr rfl
  · constructor
    · norm_num [hourRequest, loneTrade]
    · norm_num [hourRequest, loneTrade]
  · intro _ a ha b hb _ _ _ _ _
    rw [List.mem_singleton.mp ha, List.mem_singleton.mp hb]

/-- The deduplicator takes the trade before a failed upsert, and the next call, which skips it as a
duplicate, completes the chunk without it. -/
theorem registered_before_upserted :
    ((loadLabels false 1001 ++ resumeLabels 1002).foldlM
      (System.next asciiBuiltins hourRequest loneHorizon) newLoader).map
      (fun t => (hourRequest.chunks.map fun chunk => t.progress (hourRequest.idOf chunk),
        t.trades.rows)) = some ([some .complete], []) ∧
      loneTrade ∈ loneHorizon.trades ∧ hourRequest.start ≤ loneTrade.ledgerCloseTime ∧
      loneTrade.ledgerCloseTime < hourRequest.stop := by
  decide +kernel

end System

end HistoricalLoader
