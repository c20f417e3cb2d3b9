import LedgerLens.IsoTimestamps
import LedgerLens.JsonText
import LedgerLens.SqlTables
import Mathlib.Data.List.Forall2
import Mathlib.Data.List.Induction

/-!
# The event bus

`detection/event_bus.py`: risk scores published to Kafka or to NATS JetStream, and the dead letters
of those that were not. The broker is what each score and each replayed entry meets. Keys and
values are the texts that the code encodes; the counters behind `get_health` and the metrics are
left out.
-/
namespace EventBus

open IsoTimestamps JsonText SqlTables

/-- Floats are kept by the text that the encoder writes for them. -/
structure RiskScore where
  wallet : String
  assetPair : String
  score : ℤ
  benfordFlag : Bool
  mlFlag : Bool
  confidence : ℤ
  disputed : Bool
  timestamp : DateTime
  scoreVersion : String
  latencyMs : Option NumberText
  scoreLower : Option NumberText
  scoreUpper : Option NumberText
  predictionSet : Option (List ℤ)
  coverageGuarantee : Option NumberText

def optional {α : Type*} (name : String) (write : α → Json) (value : Option α) :
    List (String × Json) :=
  value.toList.map fun v => (name, write v)

def elements (l : List ℤ) : Elements :=
  l.foldr (fun i rest => .cons (.number (.ofInt i)) rest) .nil

/-- `model_dump`, with the timestamp as text and the optional fields that have a value. -/
def RiskScore.payload (s : RiskScore) : List (String × Json) :=
  [("wallet", .string s.wallet), ("asset_pair", .string s.assetPair),
    ("score", .number (.ofInt s.score)), ("benford_flag", .bool s.benfordFlag),
    ("ml_flag", .bool s.mlFlag), ("confidence", .number (.ofInt s.confidence)),
    ("disputed", .bool s.disputed), ("timestamp", .string s.timestamp.isoformat),
    ("score_version", .string s.scoreVersion)] ++
    optional "latency_ms" .number s.latencyMs ++ optional "score_lower" .number s.scoreLower ++
    optional "score_upper" .number s.scoreUpper ++
    optional "prediction_set" (fun l => .array (elements l)) s.predictionSet ++
    optional "coverage_guarantee" .number s.coverageGuarantee

def serializeEvent (s : RiskScore) (producedAt : DateTime) (traceId : Option String) : String :=
  String.ofList ((Json.object (.ofList (
    [("schema_version", .number (.ofInt 1)), ("event", .string "risk_score.updated"),
      ("produced_at", .string producedAt.isoformat), ("producer", .string "ledgerlens-core"),
      ("data", .object (.ofList s.payload))] ++
      optional "trace_id" .string (traceId.filter (· ≠ ""))))).render .default)

def RiskScore.key (s : RiskScore) : String := s.wallet ++ ":" ++ s.assetPair

structure DeadLetter where
  id : ℕ
  backend : String
  key : Option String
  value : String
  error : String
  replayAttempts : ℕ
  createdAt : String
  deriving DecidableEq

abbrev DeadLetterStore := IdTable DeadLetter DeadLetter.id

def clip (error : String) : String := String.ofList (error.toList.take 500)

namespace DeadLetterStore

def add (store : DeadLetterStore) (backend : String) (key : Option String) (value error : String)
    (now : DateTime) : DeadLetterStore :=
  store.insert
    (fun id => ⟨id, backend, key, value, clip error, 0, now.isoformat⟩) (fun _ => rfl)

/-- The oldest entries; without a limit, or with a negative one, all of them. -/
def entries (store : DeadLetterStore) (limit : Option ℤ) : List DeadLetter :=
  let limit := limit.getD (-1)
  if limit < 0 then store.rows else store.rows.take limit.toNat

def count (store : DeadLetterStore) : ℕ := store.rows.length

def remove (store : DeadLetterStore) (entryId : ℕ) : DeadLetterStore :=
  store.delete fun row => row.id = entryId

def recordFailedReplay (store : DeadLetterStore) (entryId : ℕ) (error : String) :
    DeadLetterStore :=
  store.update (fun row => row.id = entryId)
    (fun row => { row with replayAttempts := row.replayAttempts + 1, error := clip error })
    (fun _ => rfl)

theorem entries_sublist (store : DeadLetterStore) (limit : Option ℤ) :
    List.Sublist (entries store limit) store.rows := by
  unfold entries
  simp only
  split_ifs
  · exact List.Sublist.refl _
  · exact List.take_sublist _ _

theorem ids_remove (store : DeadLetterStore) (entryId n : ℕ) :
    n ∈ (remove store entryId).rows.map DeadLetter.id ↔
      n ∈ store.rows.map DeadLetter.id ∧ n ≠ entryId := by
  simp only [remove, IdTable.rows_delete, List.mem_map, List.mem_filter, decide_eq_true_eq]
  constructor
  · intro ⟨row, ⟨hrow, hne⟩, hid⟩
    exact ⟨⟨row, hrow, hid⟩, hid ▸ hne⟩
  · intro ⟨⟨row, hrow, hid⟩, hne⟩
    exact ⟨row, ⟨hrow, hid ▸ hne⟩, hid⟩

theorem ids_recordFailedReplay (store : DeadLetterStore) (entryId : ℕ) (error : String) :
    (recordFailedReplay store entryId error).rows.map DeadLetter.id =
      store.rows.map DeadLetter.id :=
  IdTable.map_update store.rows _ _ DeadLetter.id fun _ => rfl

end DeadLetterStore

inductive Outcome where
  | accepted
  | exhausted (error : String)
  | untried
  deriving DecidableEq

/-- `for attempt in range(max_retries)`, with `left` tries to go: the first try that does not
raise ends the loop, and the exception of the last try is recorded. -/
def trySend (tries : ℕ → Option String) (maxRetries : ℤ) (attempt : ℕ) : ℕ → Outcome
  | 0 => .untried
  | left + 1 =>
    match tries attempt with
    | none => .accepted
    | some e =>
      if (attempt : ℤ) = maxRetries - 1 then .exhausted e
      else trySend tries maxRetries (attempt + 1) left

def sendScore (tries : ℕ → Option String) (maxRetries : ℤ) : Outcome :=
  trySend tries maxRetries 0 maxRetries.toNat

/-- One of the tries does not raise. -/
def Accepts (tries : ℕ → Option String) (maxRetries : ℤ) : Prop :=
  ∃ attempt < maxRetries.toNat, tries attempt = none

instance (tries : ℕ → Option String) (maxRetries : ℤ) : Decidable (Accepts tries maxRetries) :=
  inferInstanceAs (Decidable (∃ attempt < maxRetries.toNat, tries attempt = none))

theorem trySend_cases (tries : ℕ → Option String) {maxRetries : ℤ} {attempt left : ℕ}
    (hleft : 0 < left) (hrange : attempt + left = maxRetries) :
    (trySend tries maxRetries attempt left = .accepted ∧
      ∃ a, attempt ≤ a ∧ a < attempt + left ∧ tries a = none) ∨
    ((∃ e, trySend tries maxRetries attempt left = .exhausted e) ∧
      ∀ a, attempt ≤ a → a < attempt + left → tries a ≠ none) := by
  induction left generalizing attempt with
  | zero => omega
  | succ left ih =>
    unfold trySend
    cases hmeets : tries attempt with
    | none => exact .inl ⟨rfl, attempt, le_rfl, by omega, hmeets⟩
    | some e =>
      have hfirst : ∀ a, attempt ≤ a → a < attempt + 1 → tries a ≠ none := by
        intro a hle hlt
        obtain rfl : a = attempt := by omega
        simp [hmeets]
      by_cases hlast : (attempt : ℤ) = maxRetries - 1
      · refine .inr ⟨⟨e, if_pos hlast⟩, ?_⟩
        intro a hle hlt
        exact hfirst a hle (by omega)
      · simp only [if_neg hlast]
        rcases @ih (attempt + 1) (by omega) (by omega) with ⟨hsend, a, hle, hlt, ha⟩ | ⟨hsend, hall⟩
        · exact .inl ⟨hsend, a, by omega, by omega, ha⟩
        · refine .inr ⟨hsend, ?_⟩
          intro a hle hlt
          by_cases ha : a < attempt + 1
          · exact hfirst a hle ha
          · exact hall a (by omega) (by omega)

theorem sendScore_untried (tries : ℕ → Option String) {maxRetries : ℤ} (h : maxRetries ≤ 0) :
    sendScore tries maxRetries = .untried := by
  rw [sendScore, Int.toNat_of_nonpos h, trySend]

theorem sendScore_cases (tries : ℕ → Option String) {maxRetries : ℤ} (h : 0 < maxRetries) :
    (sendScore tries maxRetries = .accepted ∧ Accepts tries maxRetries) ∨
    ((∃ e, sendScore tries maxRetries = .exhausted e) ∧ ¬ Accepts tries maxRetries) := by
  rcases @trySend_cases tries maxRetries 0 maxRetries.toNat (by omega) (by omega) with
    ⟨hsend, a, -, hlt, ha⟩ | ⟨hsend, hall⟩
  · exact .inl ⟨hsend, a, by omega, ha⟩
  · refine .inr ⟨hsend, ?_⟩
    intro ⟨a, hlt, ha⟩
    exact hall a (by omega) (by omega) ha

/-- What a score meets: each try returns or raises a text, and the broker has or has not
acknowledged the accepted message when `publish` returns. -/
structure Meeting where
  producedAt : DateTime
  traceId : Option String
  tries : ℕ → Option String
  failedAt : DateTime
  acknowledged : Bool

abbrev Offered := RiskScore × Meeting

def Offered.value (o : Offered) : String := serializeEvent o.1 o.2.producedAt o.2.traceId

/-- Where a score is when `publish` returns. -/
inductive Fate where
  | acknowledged
  | unacknowledged
  | deadLettered (id : ℕ)
  | dropped
  deriving DecidableEq

structure PublishResult where
  published : ℕ
  failed : ℕ
  errors : List String
  deriving DecidableEq

structure Publication where
  store : DeadLetterStore
  result : PublishResult
  fates : List Fate

/-- The body of the loop over the scores; `acked` tells whether an accepted score has its
acknowledgement. -/
def publishScore (backend : String) (acked : Offered → Bool) (maxRetries : ℤ) (p : Publication)
    (o : Offered) : Publication :=
  match sendScore o.2.tries maxRetries with
  | .accepted =>
    { p with
      result := { p.result with published := p.result.published + 1 }
      fates := p.fates ++ [if acked o then .acknowledged else .unacknowledged] }
  | .exhausted e =>
    { store := DeadLetterStore.add p.store backend (some o.1.key) o.value e o.2.failedAt
      result := { p.result with
        failed := p.result.failed + 1
        errors := p.result.errors ++ [e] }
      fates := p.fates ++ [.deadLettered (p.store.sequence + 1)] }
  | .untried => { p with fates := p.fates ++ [.dropped] }

def publishAll (backend : String) (acked : Offered → Bool) (maxRetries : ℤ)
    (store : DeadLetterStore) (offered : List Offered) : Publication :=
  offered.foldl (publishScore backend acked maxRetries) ⟨store, ⟨0, 0, []⟩, []⟩

/-- `return PublishResult(published=0, failed=len(scores), errors=[…])`. -/
def refuse (error : String) (store : DeadLetterStore) (offered : List Offered) : Publication :=
  ⟨store, ⟨0, offered.length, [error]⟩, offered.map fun _ => .dropped⟩

/-- `produce` only queues the message: its acknowledgement may come later or never, and what
`flush` reports is not read. -/
def KafkaRiskScoreBus.publish (producer : Bool) (maxRetries : ℤ) (store : DeadLetterStore)
    (offered : List Offered) : Publication :=
  if producer then publishAll "kafka" (fun o => o.2.acknowledged) maxRetries store offered
  else refuse "confluent-kafka missing" store offered

/-- JetStream's `publish` returns the acknowledgement. -/
def NATSRiskScoreBus.publish (connected : Bool) (maxRetries : ℤ) (store : DeadLetterStore)
    (offered : List Offered) : Publication :=
  if connected then publishAll "nats" (fun _ => true) maxRetries store offered
  else refuse "NATS not connected" store offered

def Kept (backend : String) (store : DeadLetterStore) (o : Offered) : Fate → Prop
  | .acknowledged => True
  | .deadLettered id => ∃ row ∈ store.rows, row.id = id ∧ row.backend = backend ∧
      row.key = some o.1.key ∧ row.value = o.value
  | _ => False

def Accounted (backend : String) (offered : List Offered) (p : Publication) : Prop :=
  List.Forall₂ (Kept backend p.store) offered p.fates ∧
    p.result.published + p.result.failed = offered.length

section Publishing

variable {backend : String} {acked : Offered → Bool} {maxRetries : ℤ}

/-- What the tries of a score make of it. -/
def Fated (backend : String) (acked : Offered → Bool) (maxRetries : ℤ) (store : DeadLetterStore)
    (o : Offered) (fate : Fate) : Prop :=
  match sendScore o.2.tries maxRetries with
  | .accepted => fate = if acked o then .acknowledged else .unacknowledged
  | .exhausted _ => ∃ row ∈ store.rows, fate = .deadLettered row.id ∧ row.backend = backend ∧
      row.key = some o.1.key ∧ row.value = o.value
  | .untried => fate = .dropped

theorem Fated.mono {store store' : DeadLetterStore} {o : Offered} {fate : Fate}
    (h : Fated backend acked maxRetries store o fate) (hsub : store.rows ⊆ store'.rows) :
    Fated backend acked maxRetries store' o fate := by
  unfold Fated at h ⊢
  cases hsend : sendScore o.2.tries maxRetries with
  | accepted => simpa only [hsend] using h
  | untried => simpa only [hsend] using h
  | exhausted e =>
    simp only [hsend] at h ⊢
    obtain ⟨row, hrow, hfate⟩ := h
    exact ⟨row, hsub hrow, hfate⟩

theorem publishScore_spec (p : Publication) (o : Offered) :
    p.store.rows ⊆ (publishScore backend acked maxRetries p o).store.rows ∧
    (∃ fate, (publishScore backend acked maxRetries p o).fates = p.fates ++ [fate] ∧
      Fated backend acked maxRetries (publishScore backend acked maxRetries p o).store o fate) ∧
    (publishScore backend acked maxRetries p o).result.published +
        (publishScore backend acked maxRetries p o).result.failed =
      p.result.published + p.result.failed + if 0 < maxRetries then 1 else 0 := by
  unfold publishScore Fated
  by_cases hpos : 0 < maxRetries
  · rcases sendScore_cases o.2.tries hpos with ⟨hsend, -⟩ | ⟨⟨e, hsend⟩, -⟩
    · simp only [hsend, if_pos hpos]
      exact ⟨List.Subset.refl _, ⟨_, rfl, rfl⟩, by omega⟩
    · simp only [hsend, if_pos hpos]
      refine ⟨List.subset_append_left _ _, ⟨_, rfl, ?_⟩, by omega⟩
      exact ⟨_, IdTable.mem_insert.mpr (.inr rfl), rfl, rfl, rfl, rfl⟩
  · simp only [sendScore_untried o.2.tries (not_lt.mp hpos), if_neg hpos]
    exact ⟨List.Subset.refl _, ⟨_, rfl, rfl⟩, by omega⟩

theorem publishAll_spec (store : DeadLetterStore) (offered : List Offered) :
    let p := publishAll backend acked maxRetries store offered
    store.rows ⊆ p.store.rows ∧
    List.Forall₂ (Fated backend acked maxRetries p.store) offered p.fates ∧
    p.result.published + p.result.failed = if 0 < maxRetries then offered.length else 0 := by
  induction offered using List.reverseRecOn with
  | nil => exact ⟨List.Subset.refl _, .nil, by simp [publishAll]⟩
  | append_singleton offered o ih =>
    obtain ⟨hrows, hfates, hcount⟩ := ih
    obtain ⟨hmore, ⟨fate, hnew, hfate⟩, hstep⟩ := @publishScore_spec backend acked maxRetries
      (publishAll backend acked maxRetries store offered) o
    have hrun : publishAll backend acked maxRetries store (offered ++ [o]) =
        publishScore backend acked maxRetries
          (publishAll backend acked maxRetries store offered) o := by
      rw [publishAll, List.foldl_append]
      rfl
    rw [hrun]
    refine ⟨List.Subset.trans hrows hmore, ?_, ?_⟩
    · rw [hnew]
      refine List.rel_append ?_ (.cons hfate .nil)
      exact hfates.imp fun _ _ hold => hold.mono hmore
    · rw [hstep, hcount, List.length_append, List.length_singleton]
      split_ifs <;> rfl

/-- A score is kept when it is tried, and acknowledged if one of its tries is accepted. -/
def Settles (acked : Offered → Bool) (maxRetries : ℤ) (o : Offered) : Prop :=
  0 < maxRetries ∧ (Accepts o.2.tries maxRetries → acked o = true)

theorem kept_iff {store : DeadLetterStore} {o : Offered} {fate : Fate}
    (h : Fated backend acked maxRetries store o fate) :
    Kept backend store o fate ↔ Settles acked maxRetries o := by
  unfold Fated at h
  unfold Settles
  by_cases hpos : 0 < maxRetries
  · rcases sendScore_cases o.2.tries hpos with ⟨hsend, haccepts⟩ | ⟨⟨e, hsend⟩, hrefused⟩
    · simp only [hsend] at h
      subst h
      cases acked o <;> simp [Kept, hpos, haccepts]
    · simp only [hsend] at h
      obtain ⟨row, hrow, rfl, hrest⟩ := h
      refine iff_of_true ⟨row, hrow, rfl, hrest⟩ ⟨hpos, ?_⟩
      intro haccepts
      exact absurd haccepts hrefused
  · simp only [sendScore_untried o.2.tries (not_lt.mp hpos)] at h
    subst h
    simp [Kept, hpos]

theorem accounted_publishAll_iff (store : DeadLetterStore) (offered : List Offered) :
    Accounted backend offered (publishAll backend acked maxRetries store offered) ↔
      ∀ o ∈ offered, Settles acked maxRetries o := by
  obtain ⟨-, hfates, hcount⟩ := @publishAll_spec backend acked maxRetries store offered
  unfold Accounted
  rw [hcount]
  constructor
  · intro ⟨hkept, _⟩ o ho
    obtain ⟨i, hi, rfl⟩ := List.getElem_of_mem ho
    have hlen : i < (publishAll backend acked maxRetries store offered).fates.length :=
      hfates.length_eq ▸ hi
    exact (kept_iff (hfates.get hi hlen)).mp (hkept.get hi hlen)
  · intro hall
    constructor
    · refine List.forall₂_iff_get.mpr ⟨hfates.length_eq, ?_⟩
      intro i hi hlen
      exact (kept_iff (hfates.get hi hlen)).mpr (hall _ (List.get_mem offered ⟨i, hi⟩))
    · cases offered with
      | nil => simp
      | cons o offered => exact if_pos (hall o List.mem_cons_self).1

theorem accounted_refuse_iff (error : String) (store : DeadLetterStore) (offered : List Offered) :
    Accounted backend offered (refuse error store offered) ↔ offered = [] := by
  cases offered with
  | nil => exact iff_of_true ⟨.nil, rfl⟩ rfl
  | cons o offered =>
    refine iff_of_false ?_ (by simp)
    intro ⟨hkept, _⟩
    rw [refuse, List.map_cons] at hkept
    exact (List.forall₂_cons.mp hkept).1

theorem accounted_ready_iff {error : String} (ready : Bool) (store : DeadLetterStore)
    (offered : List Offered) :
    Accounted backend offered
        (if ready then publishAll backend acked maxRetries store offered
          else refuse error store offered) ↔
      offered = [] ∨ (ready = true ∧ 0 < maxRetries ∧
        ∀ o ∈ offered, Accepts o.2.tries maxRetries → acked o = true) := by
  cases ready with
  | false => simp [accounted_refuse_iff]
  | true =>
    rw [if_pos rfl, accounted_publishAll_iff]
    unfold Settles
    cases offered with
    | nil => simp
    | cons o offered =>
      constructor
      · intro hall
        exact .inr ⟨rfl, (hall o List.mem_cons_self).1, fun x hx => (hall x hx).2⟩
      · intro hright x hx
        rcases hright with hnil | ⟨-, hpos, hacked⟩
        · cases hnil
        · exact ⟨hpos, hacked x hx⟩

end Publishing

/-- What the sending of one entry meets: the exception of `produce` or of JetStream's `publish`,
the messages that `flush` leaves in the queue, and whether the broker has acknowledged the entry
when the replay returns. -/
structure Sending where
  raised : Option String
  leftover : ℕ
  acknowledged : Bool

def KafkaRiskScoreBus.sendRaw (producer : Bool) (s : Sending) : Except String Unit :=
  if producer then
    match s.raised with
    | some e => throw e
    | none => if s.leftover ≠ 0 then throw "Kafka flush timed out" else pure ()
  else throw "confluent-kafka missing"

def NATSRiskScoreBus.sendRaw (connected : Bool) (s : Sending) : Except String Unit :=
  if connected then
    match s.raised with
    | some e => throw e
    | none => pure ()
  else throw "NATS not connected"

/-- The broker acknowledges only what it is sent. -/
def KafkaRiskScoreBus.delivers (producer : Bool) (s : Sending) : Bool :=
  producer && s.raised.isNone && s.acknowledged

def NATSRiskScoreBus.delivers (connected : Bool) (s : Sending) : Bool :=
  connected && s.raised.isNone

structure Replay where
  store : DeadLetterStore
  replayed : ℕ
  failed : ℕ
  delivered : List ℕ

def replayEntry (sendRaw : Sending → Except String Unit) (delivers : Sending → Bool)
    (sends : ℕ → Sending) (r : Replay) (entry : DeadLetter) : Replay :=
  let delivered := if delivers (sends entry.id) then r.delivered ++ [entry.id] else r.delivered
  match sendRaw (sends entry.id) with
  | .error e => ⟨DeadLetterStore.recordFailedReplay r.store entry.id e, r.replayed, r.failed + 1,
      delivered⟩
  | .ok () => ⟨DeadLetterStore.remove r.store entry.id, r.replayed + 1, r.failed, delivered⟩

def replayEntries (sendRaw : Sending → Except String Unit) (delivers : Sending → Bool)
    (sends : ℕ → Sending) (r : Replay) (entries : List DeadLetter) : Replay :=
  entries.foldl (replayEntry sendRaw delivers sends) r

structure ReplayResult where
  replayed : ℕ
  failed : ℕ
  remaining : ℕ
  deriving DecidableEq

def Replay.result (r : Replay) : ReplayResult :=
  ⟨r.replayed, r.failed, DeadLetterStore.count r.store⟩

/-- `sends` gives what each entry meets, by its id. -/
def replayDeadLetters (sendRaw : Sending → Except String Unit) (delivers : Sending → Bool)
    (store : DeadLetterStore) (limit : Option ℤ) (sends : ℕ → Sending) : Replay :=
  replayEntries sendRaw delivers sends ⟨store, 0, 0, []⟩ (DeadLetterStore.entries store limit)

def KafkaRiskScoreBus.replayDeadLetters (producer : Bool) (store : DeadLetterStore)
    (limit : Option ℤ) (sends : ℕ → Sending) : Replay :=
  EventBus.replayDeadLetters (sendRaw producer) (delivers producer) store limit sends

def NATSRiskScoreBus.replayDeadLetters (connected : Bool) (store : DeadLetterStore)
    (limit : Option ℤ) (sends : ℕ → Sending) : Replay :=
  EventBus.replayDeadLetters (sendRaw connected) (delivers connected) store limit sends

def Exact (store : DeadLetterStore) (r : Replay) : Prop :=
  ∀ row ∈ store.rows, row.id ∉ r.store.rows.map DeadLetter.id ↔ row.id ∈ r.delivered

section Replaying

variable {sendRaw : Sending → Except String Unit} {delivers : Sending → Bool} {sends : ℕ → Sending}

theorem ids_replayEntry (r : Replay) (entry : DeadLetter) (n : ℕ) :
    n ∈ (replayEntry sendRaw delivers sends r entry).store.rows.map DeadLetter.id ↔
      n ∈ r.store.rows.map DeadLetter.id ∧ ¬ (n = entry.id ∧ sendRaw (sends n) = .ok ()) := by
  unfold replayEntry
  cases hsend : sendRaw (sends entry.id) with
  | error e =>
    simp only [DeadLetterStore.ids_recordFailedReplay, iff_self_and]
    intro _ ⟨hid, hok⟩
    rw [hid, hsend] at hok
    cases hok
  | ok u =>
    simp only [DeadLetterStore.ids_remove]
    refine and_congr_right fun _ => not_congr ?_
    constructor
    · intro hid
      exact ⟨hid, hid ▸ hsend⟩
    · exact And.left

theorem mem_delivered_replayEntry (r : Replay) (entry : DeadLetter) (n : ℕ) :
    n ∈ (replayEntry sendRaw delivers sends r entry).delivered ↔
      n ∈ r.delivered ∨ (n = entry.id ∧ delivers (sends n) = true) := by
  have hdelivered : (replayEntry sendRaw delivers sends r entry).delivered =
      if delivers (sends entry.id) then r.delivered ++ [entry.id] else r.delivered := by
    unfold replayEntry
    cases sendRaw (sends entry.id) <;> rfl
  rw [hdelivered]
  split_ifs with harrives
  · rw [List.mem_append, List.mem_singleton]
    refine or_congr_right ?_
    constructor
    · intro hid
      exact ⟨hid, hid ▸ harrives⟩
    · exact And.left
  · simp only [iff_self_or]
    intro ⟨hid, hdelivers⟩
    exact absurd (hid ▸ hdelivers) harrives

theorem replayEntries_spec (entries : List DeadLetter) (r : Replay) (n : ℕ) :
    (n ∈ (replayEntries sendRaw delivers sends r entries).store.rows.map DeadLetter.id ↔
      n ∈ r.store.rows.map DeadLetter.id ∧
        ¬ (n ∈ entries.map DeadLetter.id ∧ sendRaw (sends n) = .ok ())) ∧
    (n ∈ (replayEntries sendRaw delivers sends r entries).delivered ↔
      n ∈ r.delivered ∨ (n ∈ entries.map DeadLetter.id ∧ delivers (sends n) = true)) := by
  induction entries generalizing r with
  | nil => simp [replayEntries]
  | cons entry entries ih =>
    obtain ⟨hstore, hdelivered⟩ := ih (replayEntry sendRaw delivers sends r entry)
    rw [ids_replayEntry, and_assoc, ← not_or, ← or_and_right] at hstore
    rw [mem_delivered_replayEntry, or_assoc, ← or_and_right] at hdelivered
    rw [List.map_cons, List.mem_cons]
    exact ⟨hstore, hdelivered⟩

theorem replayEntries_counts (entries : List DeadLetter) (r : Replay) :
    (replayEntries sendRaw delivers sends r entries).replayed +
        (replayEntries sendRaw delivers sends r entries).failed =
      r.replayed + r.failed + entries.length := by
  induction entries generalizing r with
  | nil => rfl
  | cons entry entries ih =>
    have hstep : (replayEntry sendRaw delivers sends r entry).replayed +
        (replayEntry sendRaw delivers sends r entry).failed = r.replayed + r.failed + 1 := by
      unfold replayEntry
      cases sendRaw (sends entry.id) with
      | error e => exact (Nat.add_assoc _ _ _).symm
      | ok u => exact Nat.succ_add _ _
    rw [List.length_cons]
    have htotal := ih (replayEntry sendRaw delivers sends r entry)
    rw [hstep] at htotal
    exact htotal.trans (by omega)

theorem replayDeadLetters_result (store : DeadLetterStore) (limit : Option ℤ) :
    (replayDeadLetters sendRaw delivers store limit sends).result.replayed +
        (replayDeadLetters sendRaw delivers store limit sends).result.failed =
      (DeadLetterStore.entries store limit).length :=
  (replayEntries_counts _ _).trans (Nat.zero_add _)

theorem exact_replay_iff (store : DeadLetterStore) (limit : Option ℤ) :
    Exact store (replayDeadLetters sendRaw delivers store limit sends) ↔
      ∀ entry ∈ DeadLetterStore.entries store limit,
        (sendRaw (sends entry.id) = .ok () ↔ delivers (sends entry.id) = true) := by
  unfold Exact replayDeadLetters
  have hspec := @replayEntries_spec sendRaw delivers sends
    (DeadLetterStore.entries store limit) ⟨store, 0, 0, []⟩
  constructor
  · intro hexact entry hentry
    have hrow := (DeadLetterStore.entries_sublist store limit).mem hentry
    have hid : entry.id ∈ (DeadLetterStore.entries store limit).map DeadLetter.id :=
      List.mem_map_of_mem hentry
    have hstored : entry.id ∈ store.rows.map DeadLetter.id := List.mem_map_of_mem hrow
    have hentry := hexact entry hrow
    rw [(hspec entry.id).1, (hspec entry.id).2] at hentry
    simpa [hid, hstored] using hentry
  · intro hall row hrow
    have hstored : row.id ∈ store.rows.map DeadLetter.id := List.mem_map_of_mem hrow
    rw [(hspec row.id).1, (hspec row.id).2]
    by_cases hid : row.id ∈ (DeadLetterStore.entries store limit).map DeadLetter.id
    · obtain ⟨entry, hentry, heq⟩ := List.mem_map.mp hid
      have hsame := hall entry hentry
      rw [heq] at hsame
      simpa [hid, hstored] using hsame
    · simp [hid, hstored]

end Replaying

theorem KafkaRiskScoreBus.sendRaw_iff_delivers (producer : Bool) (s : Sending) :
    (sendRaw producer s = .ok () ↔ delivers producer s = true) ↔
      (producer = true → s.raised = none → (s.leftover = 0 ↔ s.acknowledged = true)) := by
  unfold sendRaw delivers
  cases producer with
  | false => simp
  | true =>
    cases hraised : s.raised with
    | some e => simp
    | none =>
      by_cases hleft : s.leftover = 0
      · simp [hleft, pure, Except.pure]
      · simp [hleft]

theorem NATSRiskScoreBus.sendRaw_iff_delivers (connected : Bool) (s : Sending) :
    sendRaw connected s = .ok () ↔ delivers connected s = true := by
  unfold sendRaw delivers
  cases connected with
  | false => simp
  | true => cases hraised : s.raised <;> simp [pure, Except.pure]

/-- JetStream accounts for every score once it is connected and tries at all, and replays exactly.
Kafka does so where its acknowledgements agree with what the code takes for them: an accepted
score's by the return of `publish`, an entry's with the empty queue of its flush. -/
theorem accounting_iff (ready : Bool) (maxRetries : ℤ) (store : DeadLetterStore)
    (offered : List Offered) (limit : Option ℤ) (sends : ℕ → Sending) :
    (Accounted "kafka" offered (KafkaRiskScoreBus.publish ready maxRetries store offered) ↔
      offered = [] ∨ (ready = true ∧ 0 < maxRetries ∧
        ∀ o ∈ offered, Accepts o.2.tries maxRetries → o.2.acknowledged = true)) ∧
    (Exact store (KafkaRiskScoreBus.replayDeadLetters ready store limit sends) ↔
      (ready = true → ∀ entry ∈ DeadLetterStore.entries store limit,
        (sends entry.id).raised = none →
          ((sends entry.id).leftover = 0 ↔ (sends entry.id).acknowledged = true))) ∧
    (Accounted "nats" offered (NATSRiskScoreBus.publish ready maxRetries store offered) ↔
      offered = [] ∨ (ready = true ∧ 0 < maxRetries)) ∧
    Exact store (NATSRiskScoreBus.replayDeadLetters ready store limit sends) := by
  refine ⟨accounted_ready_iff ready store offered, ?_, ?_, ?_⟩
  · rw [KafkaRiskScoreBus.replayDeadLetters, exact_replay_iff]
    constructor
    · intro hall hready entry hentry
      exact (KafkaRiskScoreBus.sendRaw_iff_delivers _ _).mp (hall entry hentry) hready
    · intro hall entry hentry
      refine (KafkaRiskScoreBus.sendRaw_iff_delivers _ _).mpr ?_
      intro hready
      exact hall hready entry hentry
  · refine (accounted_ready_iff ready store offered).trans ?_
    simp
  · rw [NATSRiskScoreBus.replayDeadLetters, exact_replay_iff]
    intro entry _
    exact NATSRiskScoreBus.sendRaw_iff_delivers _ _

def noon : DateTime where
  year := 2026
  month := 7
  day := 17
  hour := 12
  minute := 0
  second := 0
  microsecond := 0
  offset := some 0
  validDate := by decide
  validClock := by decide
  validOffset := by decide

def exampleScore : RiskScore where
  wallet := "GA1"
  assetPair := "XLM/USDC"
  score := 85
  benfordFlag := true
  mlFlag := false
  confidence := 90
  disputed := false
  timestamp := noon
  scoreVersion := "3"
  latencyMs := none
  scoreLower := none
  scoreUpper := none
  predictionSet := none
  coverageGuarantee := none

/-- The producer takes the message at once, and it times out in its queue. -/
def unanswered : Meeting where
  producedAt := noon
  traceId := none
  tries := fun _ => none
  failedAt := noon
  acknowledged := false

def oneLetter : DeadLetterStore :=
  DeadLetterStore.add IdTable.empty "kafka" (some "GA1:XLM/USDC") "{}" "broker unavailable" noon

/-- The score is counted as published and is nowhere; the entry is removed and was not delivered,
because a message that has timed out is no longer in the queue. -/
theorem unanswered_lost :
    ¬ Accounted "kafka" [(exampleScore, unanswered)]
        (KafkaRiskScoreBus.publish true 3 IdTable.empty [(exampleScore, unanswered)]) ∧
      ¬ Exact oneLetter
        (KafkaRiskScoreBus.replayDeadLetters true oneLetter none fun _ => ⟨none, 0, false⟩) := by
  constructor
  · intro ⟨hkept, _⟩
    have hfates : (KafkaRiskScoreBus.publish true 3 IdTable.empty
        [(exampleScore, unanswered)]).fates = [.unacknowledged] := rfl
    rw [hfates] at hkept
    exact (List.forall₂_cons.mp hkept).1
  · intro hexact
    have hgone := (hexact _ (List.mem_singleton.mpr rfl)).mp List.not_mem_nil
    exact absurd hgone List.not_mem_nil

end EventBus
