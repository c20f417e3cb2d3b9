import LedgerLens.EventDedup
import LedgerLens.JsonText
import LedgerLens.Sha256
import Mathlib.Data.List.Sort

/-!
# Horizon trades and cursors

What the ingestion of Horizon trades shares: the idempotency key of a trade (`ingestion/dedup.py`,
`ingestion/horizon_streamer.py`), the cursors and the flush policy of checkpoints
(`ingestion/checkpoint.py`), and a Horizon stream whose cursors stand for prefixes of it.
-/
namespace HorizonTrades

open EventDedup JsonText Sha256

/-- `int` of a text, the characters of `\d`, and `str.lower`. -/
structure Builtins where
  int : String → Option ℤ
  isDecimal : Char → Bool
  lower : String → String

def asciiBuiltins : Builtins where
  int text :=
    if text ≠ "" ∧ text.toList.all Char.isDigit then
      some (text.toList.foldl (fun n c => 10 * n + (c.toNat - '0'.toNat : ℕ)) 0)
    else
      none
  isDecimal := Char.isDigit
  lower := String.toLower

/-- Of a trade what its key and its window are made of. -/
structure Trade where
  id : String
  pagingToken : Option String
  ledgerCloseTime : ℚ
  transactionHash : Option String
  deriving DecidableEq

/-- `trade.paging_token or trade.id`. -/
def Trade.token (trade : Trade) : String :=
  match trade.pagingToken with
  | none => trade.id
  | some token => if token = "" then trade.id else token

inductive IdentityValue where
  | text (value : String)
  | int (value : ℤ)
  deriving DecidableEq

/-- Texts are lowered, but for the signatures of Solana. -/
def normalize (py : Builtins) (source key : String) : IdentityValue → Json
  | .text value =>
    if source = "solana" ∧ key = "signature" then .string value else .string (py.lower value)
  | .int value => .number (.ofInt value)

def computeKeyStatic (py : Builtins) (source : String)
    (identityFields : List (String × IdentityValue)) : Key :=
  let normalized := identityFields.map fun (key, value) => (key, normalize py source key value)
  let payload : Json := .object (.ofList
    [("identity_fields",
        .object (.ofList (normalized.insertionSort fun a b => a.1 ≤ b.1))),
      ("source", .string source)])
  hexdigest (sha256 ((payload.render .default).map fun c => c.toNat.toUInt8))

def splitDashes (text : String) : List String :=
  (text.toList.splitOn '-').map String.ofList

def extractPagingTokenParts (py : Builtins) (pagingToken : String) : ℤ × ℤ :=
  match splitDashes pagingToken with
  | [ledger, operation] =>
    match py.int ledger, py.int operation with
    | some ledgerSequence, some operationIndex => (ledgerSequence, operationIndex)
    | _, _ => (0, 0)
  | _ => (0, 0)

def tradeKey (py : Builtins) (parts : ℤ × ℤ) (trade : Trade) : Key :=
  computeKeyStatic py "horizon"
    [("ledger_sequence", .int parts.1), ("tx_hash", .text (trade.transactionHash.getD "")),
      ("operation_index", .int parts.2)]

/-- The key under which `_check_trade_dedup` registers a trade. -/
def streamKey (py : Builtins) (trade : Trade) : Key :=
  tradeKey py (extractPagingTokenParts py trade.token) trade

/-- `now`, or two numbers with a dash between them. -/
def validateCursor (py : Builtins) (cursor : String) : Bool :=
  cursor = "now" ||
    match cursor.toList.splitOn '-' with
    | [ledger, operation] =>
      ledger ≠ [] ∧ ledger.all py.isDecimal ∧ operation ≠ [] ∧ operation.all py.isDecimal
    | _ => false

structure FlushPolicy where
  maxEvents : ℤ
  maxSeconds : ℚ
  maxEvents_pos : 0 < maxEvents
  maxSeconds_pos : 0 < maxSeconds

def FlushPolicy.shouldFlush (policy : FlushPolicy) (eventsSinceFlush : ℕ)
    (lastFlushTime now : ℚ) : Bool :=
  policy.maxEvents ≤ eventsSinceFlush ∨ policy.maxSeconds ≤ now - lastFlushTime

inductive Payload where
  | skipped
  | unparsable
  | trade (trade : Trade)
  deriving DecidableEq

/-- `id` is the id of the server-sent event, and `token` the paging token or id in its data. -/
structure Event where
  id : Option String
  token : Option String
  payload : Payload
  deriving DecidableEq

/-- The events of a stream in order. A cursor other than `now` stands for the events up to it, as
many as `covered` says. -/
structure Stream where
  events : List Event
  covered : String → ℕ
  covered_id : ∀ index event cursor, events[index]? = some event → cursor ∈ event.id →
    covered cursor = index + 1
  covered_token : ∀ index event cursor, events[index]? = some event → cursor ∈ event.token →
    covered cursor = index + 1

def Stream.trade? (stream : Stream) (index : ℕ) : Option Trade :=
  match stream.events[index]? with
  | some ⟨_, _, .trade trade⟩ => some trade
  | _ => none

def DistinctKeys (py : Builtins) (stream : Stream) : Prop :=
  ∀ i j ti tj, stream.trade? i = some ti → stream.trade? j = some tj →
    streamKey py ti = streamKey py tj → i = j

section Check

variable {server : RedisServer} {py : Builtins}

def checkTradeDedup (py : Builtins) (dedupStore : Option IdempotencyKeyStore)
    (redis : server.Data) (trade : Trade) (readings : Readings) :
    Option IdempotencyKeyStore × server.Data × Bool :=
  match dedupStore with
  | none => (none, redis, false)
  | some store =>
    let out := store.isDuplicate redis (streamKey py trade) (some trade.ledgerCloseTime) readings
    (some out.1, out.2.1, out.2.2 ≠ .new)

def KnownTo (dedupStore : Option IdempotencyKeyStore) (redis : server.Data) (key : Key) : Prop :=
  match dedupStore with
  | some store => store.Knows redis key
  | none => ∃ t, server.Exists redis (DEDUP_REDIS_PREFIX ++ key) t

theorem knownTo_of_exists {dedupStore : Option IdempotencyKeyStore} {redis : server.Data}
    {key : Key} (h : ∃ t, server.Exists redis (DEDUP_REDIS_PREFIX ++ key) t) :
    KnownTo dedupStore redis key := by
  cases dedupStore with
  | none => exact h
  | some store => exact .inl h

theorem checkTradeDedup_spec (dedupStore : Option IdempotencyKeyStore) (redis : server.Data)
    (trade : Trade) (readings : Readings) :
    (∀ key, KnownTo (checkTradeDedup py dedupStore redis trade readings).1
        (checkTradeDedup py dedupStore redis trade readings).2.1 key →
      KnownTo dedupStore redis key ∨ key = streamKey py trade) ∧
    ((∀ store ∈ dedupStore, ¬ store.tooOld (some trade.ledgerCloseTime) readings) →
      (checkTradeDedup py dedupStore redis trade readings).2.2 →
      KnownTo dedupStore redis (streamKey py trade)) := by
  cases dedupStore with
  | none => exact ⟨fun key hknown => .inl hknown, fun _ hskip => by simp [checkTradeDedup] at hskip⟩
  | some store =>
    constructor
    · intro key hknown
      rcases IdempotencyKeyStore.knows_isDuplicate hknown with hbefore | ⟨hkey, -⟩
      · exact .inl hbefore
      · exact .inr hkey
    · intro htimely hskip
      have hnotNew : (store.isDuplicate redis (streamKey py trade) (some trade.ledgerCloseTime)
          readings).2.2 ≠ .new := by
        simpa [checkTradeDedup] using hskip
      apply IdempotencyKeyStore.knows_of_duplicate
      exact (IdempotencyKeyStore.new_or_duplicate (htimely store rfl)).resolve_left hnotNew

end Check

def loneTrade : Trade where
  id := "100-1"
  pagingToken := some "100-1"
  ledgerCloseTime := 1000
  transactionHash := none

def loneStream : Stream where
  events := [⟨some "100-1", some "100-1", .trade loneTrade⟩]
  covered token := if token = "100-1" then 1 else 0
  covered_id := by
    intro index event cursor hevent hcursor
    cases index with
    | zero =>
      obtain rfl : ⟨some "100-1", some "100-1", .trade loneTrade⟩ = event := by simpa using hevent
      obtain rfl : cursor = "100-1" := by simpa using hcursor.symm
      rfl
    | succ index => simp at hevent
  covered_token := by
    intro index event cursor hevent hcursor
    cases index with
    | zero =>
      obtain rfl : ⟨some "100-1", some "100-1", .trade loneTrade⟩ = event := by simpa using hevent
      obtain rfl : cursor = "100-1" := by simpa using hcursor.symm
      rfl
    | succ index => simp at hevent

theorem loneStream_distinctKeys : DistinctKeys asciiBuiltins loneStream := by
  have hzero : ∀ i trade, loneStream.trade? i = some trade → i = 0 := by
    intro i trade htrade
    cases i with
    | zero => rfl
    | succ i => simp [Stream.trade?, loneStream] at htrade
  intro i j ti tj hi hj _
  rw [hzero i ti hi, hzero j tj hj]

def answeredAt (time : ℚ) : Readings := ⟨time, .answered time, time⟩

end HorizonTrades
