import LedgerLens.HorizonTrades
import LedgerLens.IsoTimestamps
import Mathlib.Algebra.Order.Floor.Semiring
import Mathlib.Data.List.TakeWhile

/-!
# Chunks of a historical load

The chunks of `ingestion/historical_loader.py`: the partition of a range, the id of a chunk, the
pages that Horizon serves of it, and the check of the trades of a page for duplicates. Once a page
is done, the keys of the trades that it brings are registered, and the trades are yet to be
upserted.
-/
namespace HistoricalChunks

open EventDedup HorizonTrades IsoTimestamps Sha256

/-- Half open, in seconds since the epoch. -/
abbrev Chunk := ℚ × ℚ

def InWindow (chunk : Chunk) (trade : Trade) : Prop :=
  chunk.1 ≤ trade.ledgerCloseTime ∧ trade.ledgerCloseTime < chunk.2

instance (chunk : Chunk) (trade : Trade) : Decidable (InWindow chunk trade) :=
  inferInstanceAs (Decidable (_ ∧ _))

def chunksFrom (step stop : ℚ) : ℕ → ℚ → List Chunk
  | 0, _ => []
  | fuel + 1, cursor =>
    if cursor < stop then
      let chunkEnd := min (cursor + step) stop
      (cursor, chunkEnd) :: chunksFrom step stop fuel chunkEnd
    else []

def partitionRange (start stop step : ℚ) : List Chunk :=
  chunksFrom step stop ⌈(stop - start) / step⌉₊ start

def validateLoadRange (historicalMaxLookbackDays : ℕ) (start stop : ℚ) : Bool :=
  start < stop ∧ stop - start ≤ 86400 * historicalMaxLookbackDays

/-- The settings of a loader and the arguments of `load` that the checks let through. `step` is the
`timedelta` of the chunk hours. -/
structure Request where
  historicalMaxLookbackDays : ℕ
  concurrency : ℕ
  start : ℚ
  stop : ℚ
  step : ℚ
  assetPair : String
  concurrency_pos : 0 < concurrency
  step_pos : 0 < step
  valid : validateLoadRange historicalMaxLookbackDays start stop

def Request.chunks (r : Request) : List Chunk := partitionRange r.start r.stop r.step

def Request.InRange (r : Request) (trade : Trade) : Prop :=
  r.start ≤ trade.ledgerCloseTime ∧ trade.ledgerCloseTime < r.stop

section Partition

variable {step stop cursor t : ℚ} {fuel : ℕ} {chunk : Chunk}

theorem bounds_of_mem_chunksFrom (hstep : 0 < step) (h : chunk ∈ chunksFrom step stop fuel cursor) :
    cursor ≤ chunk.1 ∧ chunk.2 ≤ stop := by
  induction fuel generalizing cursor with
  | zero => simp [chunksFrom] at h
  | succ fuel ih =>
    rw [chunksFrom] at h
    by_cases hlt : cursor < stop
    · rw [if_pos hlt] at h
      rcases List.mem_cons.mp h with rfl | hrest
      · exact ⟨le_rfl, min_le_right _ _⟩
      · have hnext : cursor ≤ min (cursor + step) stop := le_min (by linarith) hlt.le
        exact ⟨hnext.trans (ih hrest).1, (ih hrest).2⟩
    · simp [if_neg hlt] at h

theorem chunksFrom_pairwise (hstep : 0 < step) :
    (chunksFrom step stop fuel cursor).Pairwise fun a b => a.2 ≤ b.1 := by
  induction fuel generalizing cursor with
  | zero => exact .nil
  | succ fuel ih =>
    rw [chunksFrom]
    by_cases hlt : cursor < stop
    · rw [if_pos hlt]
      apply List.Pairwise.cons _ ih
      intro later hlater
      exact (bounds_of_mem_chunksFrom hstep hlater).1
    · rw [if_neg hlt]
      exact .nil

theorem exists_mem_chunksFrom (hfuel : stop - cursor ≤ fuel * step) (hfrom : cursor ≤ t)
    (hto : t < stop) : ∃ chunk ∈ chunksFrom step stop fuel cursor, chunk.1 ≤ t ∧ t < chunk.2 := by
  induction fuel generalizing cursor with
  | zero =>
    rw [Nat.cast_zero, zero_mul] at hfuel
    linarith
  | succ fuel ih =>
    rw [chunksFrom, if_pos (hfrom.trans_lt hto)]
    by_cases hfirst : t < min (cursor + step) stop
    · exact ⟨(cursor, min (cursor + step) stop), List.mem_cons_self, hfrom, hfirst⟩
    · have hpast : cursor + step ≤ t := by
        by_contra hnot
        exact hfirst (lt_min (not_le.mp hnot) hto)
      have hmin : min (cursor + step) stop = cursor + step := min_eq_left (by linarith)
      have hrest : stop - min (cursor + step) stop ≤ fuel * step := by
        rw [hmin]
        push_cast at hfuel
        linarith
      obtain ⟨chunk, hmem, hchunk⟩ := ih hrest (not_lt.mp hfirst)
      exact ⟨chunk, List.mem_cons_of_mem _ hmem, hchunk⟩

variable {r : Request} {trade : Trade}

theorem Request.exists_chunk (h : r.InRange trade) : ∃ chunk ∈ r.chunks, InWindow chunk trade := by
  apply exists_mem_chunksFrom _ h.1 h.2
  have hceil : (r.stop - r.start) / r.step ≤ ⌈(r.stop - r.start) / r.step⌉₊ := Nat.le_ceil _
  rwa [div_le_iff₀ r.step_pos] at hceil

theorem Request.inRange_of_inWindow (hchunk : chunk ∈ r.chunks) (h : InWindow chunk trade) :
    r.InRange trade := by
  obtain ⟨hstart, hstop⟩ := bounds_of_mem_chunksFrom r.step_pos hchunk
  exact ⟨hstart.trans h.1, h.2.trans_le hstop⟩

theorem Request.chunk_unique {i j : ℕ} {chunk' : Chunk} (hi : r.chunks[i]? = some chunk)
    (hj : r.chunks[j]? = some chunk') (h : InWindow chunk trade) (h' : InWindow chunk' trade) :
    i = j := by
  have happart : ∀ {i j : ℕ} {chunk chunk' : Chunk}, r.chunks[i]? = some chunk →
      r.chunks[j]? = some chunk' → InWindow chunk trade → InWindow chunk' trade → ¬ i < j := by
    intro i j chunk chunk' hi hj h h' hlt
    obtain ⟨hilt, rfl⟩ := List.getElem?_eq_some_iff.mp hi
    obtain ⟨hjlt, rfl⟩ := List.getElem?_eq_some_iff.mp hj
    have hle := List.pairwise_iff_getElem.mp (chunksFrom_pairwise r.step_pos) i j hilt hjlt hlt
    exact absurd (h.2.trans_le hle) (not_lt.mpr h'.1)
  exact le_antisymm (not_lt.mp (happart hj hi h' h)) (not_lt.mp (happart hi hj h h'))

end Partition

def civilDate (days : ℤ) : ℤ × ℤ × ℤ :=
  -- Years start in March here, so that a leap day ends its year; an era is 400 years.
  let z := days + 719468
  let dayOfEra := z % 146097
  let yearOfEra := (dayOfEra - dayOfEra / 1460 + dayOfEra / 36524 - dayOfEra / 146096) / 365
  let dayOfYear := dayOfEra - (365 * yearOfEra + yearOfEra / 4 - yearOfEra / 100)
  let month := (5 * dayOfYear + 2) / 153
  let day := dayOfYear - (153 * month + 2) / 5 + 1
  let year := yearOfEra + z / 146097 * 400
  if month < 10 then (year, month + 3, day) else (year + 1, month - 9, day)

/-- There is none where the year is out of range. -/
def utcDateTime (t : ℚ) : Option DateTime :=
  let micros := ⌊t * 1000000⌋
  let (year, month, day) := civilDate (micros / 86400000000)
  let clock := (micros % 86400000000).toNat
  if h : ValidDate year.toNat month.toNat day.toNat ∧ ValidClock (clock / 3600000000)
      (clock / 60000000 % 60) (clock / 1000000 % 60) (clock % 1000000) then
    some
      { year := year.toNat
        month := month.toNat
        day := day.toNat
        hour := clock / 3600000000
        minute := clock / 60000000 % 60
        second := clock / 1000000 % 60
        microsecond := clock % 1000000
        offset := some 0
        validDate := h.1
        validClock := h.2
        validOffset := validOffset_utc }
  else none

def isoformat (t : ℚ) : String := ((utcDateTime t).map DateTime.isoformat).getD ""

example : isoformat (1709164800 + 1 / 2) = "2024-02-29T00:00:00.500000+00:00" := by decide +kernel

/-- The text of a time in microseconds of UTC. -/
def isoText (t : ℤ) : String := isoformat (t / 1000000)

@[irreducible] def chunkId (assetPair : String) (chunk : Chunk) : String :=
  let value := isoformat chunk.1 ++ "|" ++ isoformat chunk.2 ++ "|" ++ assetPair
  String.ofList ((hexdigest (sha256 value.toUTF8.toList)).toList.take 8)

def Request.idOf (r : Request) (chunk : Chunk) : String := chunkId r.assetPair chunk

def parseAssetPair (assetPair : String) : Option (String × String) :=
  match assetPair.toList.span (· ≠ '/') with
  | (base, _ :: counter) =>
    if base ≠ [] ∧ counter ≠ [] then some (String.ofList base, String.ofList counter) else none
  | _ => none

inductive Record where
  | unparsable
  | trade (trade : Trade)
  deriving DecidableEq

structure Page where
  records : List Record
  next : Bool

/-- What Horizon serves of the trades of the asset pair: each that closed in the window of a chunk
stands on one of its pages, before the pages end, and the pages are in ascending order. -/
structure Horizon where
  trades : List Trade
  page : Chunk → ℕ → Page
  complete : ∀ chunk, ∀ trade ∈ trades, InWindow chunk trade →
    ∃ p, .trade trade ∈ (page chunk p).records ∧
      ∀ q < p, (page chunk q).records ≠ [] ∧ (page chunk q).next
  sound : ∀ chunk p trade, .trade trade ∈ (page chunk p).records → trade ∈ trades
  ordered : ∀ chunk p q a b, p < q → .trade a ∈ (page chunk p).records →
    .trade b ∈ (page chunk q).records → a.ledgerCloseTime ≤ b.ledgerCloseTime

def received (flaw : Option ℕ) (records : List Record) : List Record :=
  match flaw with
  | none => records
  | some index => records.set index .unparsable

theorem mem_of_mem_received {flaw : Option ℕ} {records : List Record} {trade : Trade}
    (h : .trade trade ∈ received flaw records) : .trade trade ∈ records := by
  cases flaw with
  | none => exact h
  | some index =>
    rcases List.mem_or_eq_of_mem_set h with hmem | heq
    · exact hmem
    · cases heq

theorem received_eq_nil {flaw : Option ℕ} {records : List Record} :
    received flaw records = [] ↔ records = [] := by
  cases flaw with
  | none => exact Iff.rfl
  | some index => exact List.set_eq_nil_iff ..

theorem received_eq {flaw : Option ℕ} {records : List Record}
    (h : ∀ record ∈ received flaw records, record ≠ .unparsable) :
    received flaw records = records := by
  cases flaw with
  | none => rfl
  | some index =>
    by_cases hlt : index < records.length
    · exact absurd rfl (h .unparsable (List.mem_set hlt .unparsable))
    · exact List.set_eq_of_length_le (not_lt.mp hlt)

/-- The key of a trade; `int` may raise. -/
def loaderKey (py : Builtins) (trade : Trade) : Option Key :=
  match splitDashes trade.token with
  | [ledger, operation] =>
    match py.int ledger, py.int operation with
    | some ledgerSequence, some operationIndex =>
      some (tradeKey py (ledgerSequence, operationIndex) trade)
    | _, _ => none
  | _ => some (tradeKey py (0, 0) trade)

/-- What the loop over the records of a page changes. -/
structure Batch (server : RedisServer) where
  dedupStore : Option IdempotencyKeyStore
  redis : server.Data
  validated : List Trade
  seenInBatch : List Key
  reachedEnd : Bool

/-- The record raises, where the deduplication is enabled or not. -/
def raises (py : Builtins) (dedup : Bool) (chunk : Chunk) : Record → Bool
  | .unparsable => true
  | .trade trade => dedup ∧ InWindow chunk trade ∧ loaderKey py trade = none

section Records

variable {server : RedisServer} (py : Builtins) (chunk : Chunk)

namespace Batch

/-- The trades of the window; `false` when `int` raises. -/
def checkTrade (b : Batch server) (trade : Trade) (readings : Readings) : Batch server × Bool :=
  match b.dedupStore with
  | none => ({ b with validated := b.validated ++ [trade] }, true)
  | some store =>
    match loaderKey py trade with
    | none => (b, false)
    | some key =>
      if key ∈ b.seenInBatch then (b, true)
      else
        let out := store.isDuplicate b.redis key (some trade.ledgerCloseTime) readings
        let b := { b with dedupStore := some out.1, redis := out.2.1 }
        if out.2.2 = .new then
          ({ b with
              seenInBatch := b.seenInBatch ++ [key]
              validated := b.validated ++ [trade] },
            true)
        else (b, true)

def processRecord (b : Batch server) : Record → Readings → Batch server × Bool
  | .unparsable, _ => (b, false)
  | .trade trade, readings =>
    if chunk.2 ≤ trade.ledgerCloseTime then ({ b with reachedEnd := true }, true)
    else if chunk.1 ≤ trade.ledgerCloseTime then b.checkTrade py trade readings
    else (b, true)

/-- Up to the first record that raises. -/
def processRecords (b : Batch server) : List (Record × Readings) → Batch server × Bool
  | [] => (b, true)
  | (record, readings) :: rest =>
    let out := b.processRecord py chunk record readings
    if out.2 then out.1.processRecords rest else out

end Batch

def windowTrades (records : List Record) : List Trade :=
  records.filterMap fun
    | .unparsable => none
    | .trade trade => if InWindow chunk trade then some trade else none

variable {py chunk}

theorem mem_windowTrades {records : List Record} {trade : Trade} :
    trade ∈ windowTrades chunk records ↔ .trade trade ∈ records ∧ InWindow chunk trade := by
  rw [windowTrades, List.mem_filterMap]
  constructor
  · rintro ⟨record, hmem, hsome⟩
    cases record with
    | unparsable => cases hsome
    | trade other =>
      by_cases hwindow : InWindow chunk other
      · simp only [if_pos hwindow, Option.some.injEq] at hsome
        exact hsome ▸ ⟨hmem, hwindow⟩
      · simp [if_neg hwindow] at hsome
  · rintro ⟨hmem, hwindow⟩
    exact ⟨.trade trade, hmem, if_pos hwindow⟩

theorem mem_windowTrades_singleton {trade other : Trade} :
    other ∈ windowTrades chunk [.trade trade] ↔ other = trade ∧ InWindow chunk trade := by
  rw [mem_windowTrades, List.mem_singleton, Record.trade.injEq]
  constructor
  · rintro ⟨rfl, hwindow⟩
    exact ⟨rfl, hwindow⟩
  · rintro ⟨rfl, hwindow⟩
    exact ⟨rfl, hwindow⟩

theorem windowTrades_append (before after : List Record) :
    windowTrades chunk (before ++ after) = windowTrades chunk before ++ windowTrades chunk after :=
  List.filterMap_append

namespace Batch

def Knows (b : Batch server) (key : Key) : Prop :=
  ∃ store ∈ b.dedupStore, store.Knows b.redis key

/-- What a call of `is_duplicate` may register for a trade of the window, and what it answers. -/
theorem checkTrade_cases {b : Batch server} {trade : Trade} {readings : Readings}
    (hkey : b.dedupStore.isSome → loaderKey py trade ≠ none)
    (hwindow : ∀ store ∈ b.dedupStore, store.replayWindowSeconds = 0) :
    (b.dedupStore = none ∧
      b.checkTrade py trade readings = ({ b with validated := b.validated ++ [trade] }, true)) ∨
    b.dedupStore.isSome ∧ ∃ key, loaderKey py trade = some key ∧
      (key ∈ b.seenInBatch ∧ b.checkTrade py trade readings = (b, true) ∨
        ∃ store redis, store.replayWindowSeconds = 0 ∧
          (∀ k, store.Knows redis k → b.Knows k ∨ k = key) ∧
          (b.checkTrade py trade readings =
              ({ b with
                  dedupStore := some store
                  redis := redis
                  seenInBatch := b.seenInBatch ++ [key]
                  validated := b.validated ++ [trade] },
                true) ∨
            b.Knows key ∧ b.checkTrade py trade readings =
              ({ b with dedupStore := some store, redis := redis }, true))) := by
  rw [checkTrade]
  cases hstore : b.dedupStore with
  | none => exact .inl ⟨rfl, rfl⟩
  | some store =>
    right
    cases hloader : loaderKey py trade with
    | none => exact absurd hloader (hkey (by rw [hstore]; rfl))
    | some key =>
      refine ⟨rfl, key, rfl, ?_⟩
      simp only
      by_cases hseen : key ∈ b.seenInBatch
      · exact .inl ⟨hseen, if_pos hseen⟩
      · right
        rw [if_neg hseen]
        have hreplay : store.replayWindowSeconds = 0 := hwindow store hstore
        have htimely : ¬ store.tooOld (some trade.ledgerCloseTime) readings := by
          simp [IdempotencyKeyStore.tooOld, hreplay]
        refine ⟨(store.isDuplicate b.redis key (some trade.ledgerCloseTime) readings).1,
          (store.isDuplicate b.redis key (some trade.ledgerCloseTime) readings).2.1,
          IdempotencyKeyStore.settings_isDuplicate.2.2.trans hreplay, ?_, ?_⟩
        · intro k hknows
          rcases IdempotencyKeyStore.knows_isDuplicate hknows with hbefore | ⟨rfl, -⟩
          · exact .inl ⟨store, hstore, hbefore⟩
          · exact .inr rfl
        · by_cases hnew :
              (store.isDuplicate b.redis key (some trade.ledgerCloseTime) readings).2.2 = .new
          · exact .inl (if_pos hnew)
          · right
            refine ⟨⟨store, hstore, ?_⟩, if_neg hnew⟩
            apply IdempotencyKeyStore.knows_of_duplicate
            exact (IdempotencyKeyStore.new_or_duplicate htimely).resolve_left hnew

variable (py chunk) in
/-- What holds once some of the records are done: the batch registers what it is to upsert, and
leaves out what was registered. -/
structure Invariant (start : Batch server) (done : List Record) (b : Batch server) : Prop where
  enabled : b.dedupStore.isSome = start.dedupStore.isSome
  window : ∀ store ∈ b.dedupStore, store.replayWindowSeconds = 0
  registered : ∀ key, b.Knows key →
    start.Knows key ∨ ∃ trade ∈ b.validated, loaderKey py trade = some key
  seenInBatch : ∀ key ∈ b.seenInBatch, ∃ trade ∈ b.validated, loaderKey py trade = some key
  validated : ∀ trade ∈ b.validated, trade ∈ windowTrades chunk done
  covered : ∀ trade ∈ windowTrades chunk done, trade ∈ b.validated ∨
    start.dedupStore.isSome ∧ ∃ key, loaderKey py trade = some key ∧
      (start.Knows key ∨ ∃ other ∈ b.validated, loaderKey py other = some key)
  reachedEnd : b.reachedEnd → ∃ trade, .trade trade ∈ done ∧ chunk.2 ≤ trade.ledgerCloseTime

variable {start b : Batch server} {done : List Record}

/-- A record that brings nothing to upsert and registers nothing new. -/
theorem Invariant.skip {b' : Batch server} {record : Record}
    (h : start.Invariant py chunk done b) (hvalidated : b'.validated = b.validated)
    (henabled : b'.dedupStore.isSome = b.dedupStore.isSome)
    (hwindow : ∀ store ∈ b'.dedupStore, store.replayWindowSeconds = 0)
    (hknows : ∀ k, b'.Knows k → b.Knows k) (hseen : b'.seenInBatch = b.seenInBatch)
    (hend : b'.reachedEnd → b.reachedEnd ∨
      ∃ trade, record = .trade trade ∧ chunk.2 ≤ trade.ledgerCloseTime)
    (hcovered : ∀ trade ∈ windowTrades chunk [record], start.dedupStore.isSome ∧
      ∃ key, loaderKey py trade = some key ∧
        (start.Knows key ∨ ∃ other ∈ b.validated, loaderKey py other = some key)) :
    start.Invariant py chunk (done ++ [record]) b' := by
  constructor
  · rw [henabled, h.enabled]
  · exact hwindow
  · rw [hvalidated]
    intro key hkey
    exact h.registered key (hknows key hkey)
  · rw [hvalidated, hseen]
    exact h.seenInBatch
  · rw [hvalidated, windowTrades_append]
    intro trade htrade
    exact List.mem_append_left _ (h.validated trade htrade)
  · rw [hvalidated, windowTrades_append]
    intro trade htrade
    rcases List.mem_append.mp htrade with hold | hnew
    · exact h.covered trade hold
    · exact .inr (hcovered trade hnew)
  · intro hreached
    rcases hend hreached with hold | ⟨trade, rfl, hlate⟩
    · obtain ⟨trade, hmem, hlate⟩ := h.reachedEnd hold
      exact ⟨trade, List.mem_append_left _ hmem, hlate⟩
    · exact ⟨trade, List.mem_append_right _ (List.mem_singleton.mpr rfl), hlate⟩

/-- A trade of the window that is to be upserted, and under whose key nothing else is registered. -/
theorem Invariant.add {b' : Batch server} {trade : Trade} (h : start.Invariant py chunk done b)
    (hinWindow : InWindow chunk trade) (hvalidated : b'.validated = b.validated ++ [trade])
    (henabled : b'.dedupStore.isSome = b.dedupStore.isSome)
    (hwindow : ∀ store ∈ b'.dedupStore, store.replayWindowSeconds = 0)
    (hknows : ∀ k, b'.Knows k → b.Knows k ∨ loaderKey py trade = some k)
    (hseen : ∀ k ∈ b'.seenInBatch, k ∈ b.seenInBatch ∨ loaderKey py trade = some k)
    (hend : b'.reachedEnd = b.reachedEnd) :
    start.Invariant py chunk (done ++ [.trade trade]) b' := by
  have hself : trade ∈ b'.validated := by
    rw [hvalidated]
    exact List.mem_append_right _ (List.mem_singleton.mpr rfl)
  have hkeep : ∀ {other}, other ∈ b.validated → other ∈ b'.validated := by
    intro other hother
    rw [hvalidated]
    exact List.mem_append_left _ hother
  constructor
  · rw [henabled, h.enabled]
  · exact hwindow
  · intro key hkey
    rcases hknows key hkey with hold | hself'
    · exact (h.registered key hold).imp_right fun ⟨other, hother, hk⟩ => ⟨other, hkeep hother, hk⟩
    · exact .inr ⟨trade, hself, hself'⟩
  · intro key hkey
    rcases hseen key hkey with hold | hself'
    · obtain ⟨other, hother, hk⟩ := h.seenInBatch key hold
      exact ⟨other, hkeep hother, hk⟩
    · exact ⟨trade, hself, hself'⟩
  · rw [hvalidated, windowTrades_append]
    intro other hother
    rcases List.mem_append.mp hother with hold | hnew
    · exact List.mem_append_left _ (h.validated other hold)
    · obtain rfl := List.mem_singleton.mp hnew
      exact List.mem_append_right _ (mem_windowTrades_singleton.mpr ⟨rfl, hinWindow⟩)
  · rw [windowTrades_append]
    intro other hother
    rcases List.mem_append.mp hother with hold | hnew
    · rcases h.covered other hold with hvalid | ⟨hsome, key, hk, hdup⟩
      · exact .inl (hkeep hvalid)
      · exact .inr ⟨hsome, key, hk, hdup.imp_right fun ⟨o, ho, hok⟩ => ⟨o, hkeep ho, hok⟩⟩
    · obtain ⟨rfl, -⟩ := mem_windowTrades_singleton.mp hnew
      exact .inl hself
  · rw [hend]
    intro hreached
    obtain ⟨other, hmem, hlate⟩ := h.reachedEnd hreached
    exact ⟨other, List.mem_append_left _ hmem, hlate⟩

theorem processRecord_raises {record : Record} {readings : Readings}
    (h : raises py b.dedupStore.isSome chunk record) :
    b.processRecord py chunk record readings = (b, false) := by
  cases record with
  | unparsable => rfl
  | trade trade =>
    obtain ⟨henabled, ⟨hfrom, hto⟩, hkey⟩ : b.dedupStore.isSome ∧ InWindow chunk trade ∧
        loaderKey py trade = none := by simpa [raises] using h
    obtain ⟨store, hstore⟩ := Option.isSome_iff_exists.mp henabled
    rw [processRecord, if_neg (not_le.mpr hto), if_pos hfrom, checkTrade, hstore]
    simp only [hkey]

theorem checkTrade_keeps {trade : Trade} {readings : Readings}
    (h : start.Invariant py chunk done b) (hinWindow : InWindow chunk trade)
    (hkey : b.dedupStore.isSome → loaderKey py trade ≠ none) :
    (b.checkTrade py trade readings).2 ∧
      start.Invariant py chunk (done ++ [.trade trade]) (b.checkTrade py trade readings).1 := by
  have hduplicate : b.dedupStore.isSome → ∀ key, loaderKey py trade = some key →
      (start.Knows key ∨ ∃ other ∈ b.validated, loaderKey py other = some key) →
      ∀ other ∈ windowTrades chunk [.trade trade], start.dedupStore.isSome ∧
        ∃ key, loaderKey py other = some key ∧
          (start.Knows key ∨ ∃ another ∈ b.validated, loaderKey py another = some key) := by
    intro henabled key hk hdup other hother
    obtain ⟨rfl, -⟩ := mem_windowTrades_singleton.mp hother
    exact ⟨h.enabled ▸ henabled, key, hk, hdup⟩
  rcases @checkTrade_cases server py b trade readings hkey h.window with
    ⟨-, heq⟩ | ⟨henabled, key, hk, ⟨hseen, heq⟩ | ⟨store, redis, hreplay, hknows, hcases⟩⟩
  · rw [heq]
    exact ⟨rfl, h.add hinWindow rfl rfl h.window (fun _ => .inl) (fun _ => .inl) rfl⟩
  · rw [heq]
    refine ⟨rfl, h.skip rfl rfl h.window (fun _ => id) rfl .inl ?_⟩
    exact hduplicate henabled key hk (.inr (h.seenInBatch key hseen))
  · have hwindow : ∀ store' ∈ some store, store'.replayWindowSeconds = 0 := by
      rintro _ ⟨⟩
      exact hreplay
    rcases hcases with heq | ⟨hknown, heq⟩
    · rw [heq]
      refine ⟨rfl, h.add hinWindow rfl henabled.symm hwindow ?_ ?_ rfl⟩
      · rintro k ⟨_, ⟨⟩, hk'⟩
        rcases hknows k hk' with hbefore | rfl
        · exact .inl hbefore
        · exact .inr hk
      · intro k hmem
        rcases List.mem_append.mp hmem with hold | hnew
        · exact .inl hold
        · exact .inr (List.mem_singleton.mp hnew ▸ hk)
    · rw [heq]
      refine ⟨rfl, h.skip rfl henabled.symm hwindow ?_ rfl .inl ?_⟩
      · rintro k ⟨_, ⟨⟩, hk'⟩
        rcases hknows k hk' with hbefore | rfl
        · exact hbefore
        · exact hknown
      · exact hduplicate henabled key hk (h.registered key hknown)

theorem processRecord_keeps {record : Record} {readings : Readings}
    (h : start.Invariant py chunk done b)
    (hraises : ¬ raises py b.dedupStore.isSome chunk record) :
    (b.processRecord py chunk record readings).2 ∧
      start.Invariant py chunk (done ++ [record]) (b.processRecord py chunk record readings).1 := by
  cases record with
  | unparsable => exact absurd rfl hraises
  | trade trade =>
    have houtside : ¬ InWindow chunk trade → ∀ other ∈ windowTrades chunk [.trade trade],
        start.dedupStore.isSome ∧ ∃ key, loaderKey py other = some key ∧
          (start.Knows key ∨ ∃ another ∈ b.validated, loaderKey py another = some key) := by
      intro hout other hother
      exact absurd (mem_windowTrades_singleton.mp hother).2 hout
    rw [processRecord]
    by_cases hlate : chunk.2 ≤ trade.ledgerCloseTime
    · rw [if_pos hlate]
      refine ⟨rfl, h.skip rfl rfl h.window (fun _ => id) rfl (fun _ => .inr ⟨trade, rfl, hlate⟩) ?_⟩
      exact houtside fun hwindow => not_le.mpr hwindow.2 hlate
    · rw [if_neg hlate]
      by_cases hfrom : chunk.1 ≤ trade.ledgerCloseTime
      · rw [if_pos hfrom]
        have hinWindow : InWindow chunk trade := ⟨hfrom, not_le.mp hlate⟩
        apply checkTrade_keeps h hinWindow
        intro henabled hnone
        exact hraises (by simp [raises, henabled, hinWindow, hnone])
      · rw [if_neg hfrom]
        refine ⟨rfl, h.skip rfl rfl h.window (fun _ => id) rfl .inl ?_⟩
        exact houtside fun hwindow => hfrom hwindow.1

/-- The records before the first that raises are done, and it ends the loop. -/
theorem processRecords_spec {rs : List (Record × Readings)}
    (h : start.Invariant py chunk done b) :
    start.Invariant py chunk
      (done ++ (rs.map Prod.fst).takeWhile fun record =>
        !raises py start.dedupStore.isSome chunk record)
      (b.processRecords py chunk rs).1 ∧
    ((b.processRecords py chunk rs).2 ↔
      ∀ record ∈ rs.map Prod.fst, ¬ raises py start.dedupStore.isSome chunk record) := by
  induction rs generalizing b done with
  | nil => exact ⟨by simpa [processRecords] using h, by simp [processRecords]⟩
  | cons head rest ih =>
    obtain ⟨record, readings⟩ := head
    rw [processRecords, List.map_cons]
    by_cases hraises : raises py start.dedupStore.isSome chunk record
    · have heq : b.processRecord py chunk record readings = (b, false) := by
        apply processRecord_raises
        rwa [h.enabled]
      simp only [heq, Bool.false_eq_true, if_false, List.takeWhile_cons, hraises, Bool.not_true,
        List.append_nil]
      exact ⟨h, by simp [hraises]⟩
    · obtain ⟨hgoes, hinv⟩ := @processRecord_keeps server py chunk start b done record readings h
        (by rwa [h.enabled])
      obtain ⟨hrest, hok⟩ := ih hinv
      simp only [hgoes, if_true]
      constructor
      · simpa [hraises] using hrest
      · rw [hok]
        simp [hraises]

end Batch

end Records

end HistoricalChunks
