import LedgerLens.IsoTimestamps
import LedgerLens.JsonParsing
import LedgerLens.Sha256
import LedgerLens.SqlTables
import LedgerLens.StableReplay
import LedgerLens.FallibleRuns
import Mathlib.Data.String.Basic

/-!
# Scoring events

`audit/scoring_events.py`: the append-only store of scoring decisions, each wallet's events chained
by hashes as they are appended, and the verifier that replays them in the order of their stored
timestamps.
-/
namespace ScoringEvents

open HashChain IsoTimestamps JsonText Sha256 SqlTables StableReplay

def VALID_TRIGGERED_BY : List String :=
  ["ingestion", "manual_recompute", "feedback_boost", "admin_override"]

structure ScoringEvent where
  eventId : String
  wallet : String
  namespaceId : String
  score : ℤ
  previousScore : Option ℤ
  featureSnapshot : List (String × Json)
  modelVersion : String
  triggeredBy : String
  actorId : Option String
  chainHash : String
  occurredAt : DateTime
  signature : String

/-- `sorted(items())`, the keys of a dictionary being distinct. -/
def sortItems (items : List (String × Json)) : List (String × Json) :=
  inKeyOrder Prod.fst items

mutual

/-- `sort_keys`, at every depth. -/
def sortKeys : Json → Json
  | .array es => .array (sortElements es)
  | .object ms => .object (.ofList (sortItems (sortMembers ms)))
  | .null => .null
  | .bool b => .bool b
  | .number n => .number n
  | .string s => .string s

def sortElements : Elements → Elements
  | .nil => .nil
  | .cons value rest => .cons (sortKeys value) (sortElements rest)

def sortMembers : Members → List (String × Json)
  | .nil => []
  | .cons key value rest => (key, sortKeys value) :: sortMembers rest

end

def digest (text : List Char) : String := hexdigest (sha256 (text.map fun c => c.toNat.toUInt8))

/-- `previous_chain_hash if previous_chain_hash else "GENESIS"`. -/
def prevText : Option String → String
  | none => "GENESIS"
  | some hash => if hash = "" then "GENESIS" else hash

/-- The canonical JSON of an event, given the ISO text of its time. -/
def chainPayload (previous : Option String) (eventId wallet : String) (score : ℤ)
    (features : List (String × Json)) (occurredAt : String) : List Char :=
  (sortKeys (.object (.ofList [
    ("prev", .string (prevText previous)),
    ("event_id", .string eventId),
    ("wallet", .string wallet),
    ("score", .number (.ofInt score)),
    ("features", .object (.ofList (sortItems features))),
    ("occurred_at", .string occurredAt)]))).render .compact

def computeChainHash (previous : Option String) (eventId wallet : String) (score : ℤ)
    (features : List (String × Json)) (occurredAt : DateTime) : String :=
  digest (chainPayload previous eventId wallet score features occurredAt.isoformat)

structure Row where
  eventId : String
  wallet : String
  namespaceId : String
  score : ℤ
  previousScore : Option ℤ
  featureSnapshot : String
  modelVersion : String
  triggeredBy : String
  actorId : Option String
  chainHash : String
  occurredAt : String
  deriving DecidableEq

/-- The primary key and the uniqueness of `chain_hash`. -/
def Clash (a b : Row) : Prop := a.eventId = b.eventId ∨ a.chainHash = b.chainHash

instance : DecidableRel Clash := fun _ _ => inferInstanceAs (Decidable (_ ∨ _))

instance : Std.Symm Clash := ⟨fun _ _ h => h.imp Eq.symm Eq.symm⟩

abbrev Store := UniqueTable Row Clash

/-- `from_row`. An unreadable snapshot is empty, an unreadable time is the present one, and a
naive time is taken for UTC. -/
def readTime (now : DateTime) (text : String) : DateTime :=
  let occurred := (fromisoformat text).getD now
  if occurred.offset = none then occurred.replaceUtc else occurred

def readSnapshot (text : String) : List (String × Json) :=
  match loads text with
  | some (.object ms) => ms.toList
  | _ => []

def fromRow (now : DateTime) (row : Row) : ScoringEvent where
  eventId := row.eventId
  wallet := row.wallet
  namespaceId := row.namespaceId
  score := row.score
  previousScore := row.previousScore
  featureSnapshot := readSnapshot row.featureSnapshot
  modelVersion := row.modelVersion
  triggeredBy := row.triggeredBy
  actorId := row.actorId
  chainHash := row.chainHash
  occurredAt := readTime now row.occurredAt
  signature := ""

def walletRows (rows : List Row) (wallet : String) : List Row :=
  rows.filter fun r => decide (r.wallet = wallet)

/-- `ORDER BY occurred_at DESC LIMIT 1`, read backwards from the index on wallet and time. -/
def getLatestEvent (now : DateTime) (rows : List Row) (wallet : String) : Option ScoringEvent :=
  (latest Row.occurredAt (walletRows rows wallet)).map (fromRow now)

def dumpsSnapshot (features : List (String × Json)) : String :=
  String.ofList ((Json.object (.ofList (sortItems features))).render .compact)

/-- The row that `_insert` writes for an event. -/
def eventRow (e : ScoringEvent) : Row where
  eventId := e.eventId
  wallet := e.wallet
  namespaceId := e.namespaceId
  score := e.score
  previousScore := e.previousScore
  featureSnapshot := dumpsSnapshot e.featureSnapshot
  modelVersion := e.modelVersion
  triggeredBy := e.triggeredBy
  actorId := e.actorId
  chainHash := e.chainHash
  occurredAt := e.occurredAt.isoformat

inductive AppendError where
  | invalidTriggeredBy (value : String)
  | missingActor
  | integerOverflow
  | integrityError
  deriving DecidableEq, Repr

/-- SQLite stores integers of 64 bits, and scores from 0 to 100. -/
def insert (s : Store) (e : ScoringEvent) : Except AppendError Store :=
  if ∃ i ∈ e.previousScore, i < -2 ^ 63 ∨ 2 ^ 63 ≤ i then .error .integerOverflow
  else if e.score < 0 ∨ 100 < e.score then .error .integrityError
  else
    match s.insert? (eventRow e) with
    | none => .error .integrityError
    | some s' => .ok s'

def truncate (maxKeys : ℕ) (e : ScoringEvent) : ScoringEvent :=
  if maxKeys < e.featureSnapshot.length then
    { e with featureSnapshot := e.featureSnapshot.take maxKeys }
  else e

def chained (prev : Option String) (e : ScoringEvent) : ScoringEvent :=
  { e with
    chainHash := computeChainHash prev e.eventId e.wallet e.score e.featureSnapshot e.occurredAt }

def append (now : DateTime) (maxKeys : ℕ) (s : Store) (e : ScoringEvent) :
    Except AppendError Store :=
  if e.triggeredBy ∉ VALID_TRIGGERED_BY then .error (.invalidTriggeredBy e.triggeredBy)
  else if e.triggeredBy = "admin_override" ∧ e.actorId.getD "" = "" then .error .missingActor
  else
    let e := truncate maxKeys e
    let prev := getLatestEvent now s.rows e.wallet
    insert s (chained (prev.map ScoringEvent.chainHash) e)

/-- The calls of `append`, each with the time that it reads. -/
def appendAll (maxKeys : ℕ) (calls : List (DateTime × ScoringEvent)) : Except AppendError Store :=
  calls.foldlM (fun s call => append call.1 maxKeys s call.2) .empty

def REPLAY_LIMIT : ℕ := 1000

def replay (now : DateTime) (s : Store) (wallet : String) (since : Option DateTime) (limit : ℕ) :
    List ScoringEvent :=
  let rows := (walletRows s.rows wallet).filter fun r =>
    since.all fun d => decide (d.isoformat ≤ r.occurredAt)
  ((inKeyOrder Row.occurredAt rows).take limit).map (fromRow now)

inductive Status where
  | valid
  | tampered
  | noEvents
  deriving DecidableEq, Repr

structure ChainVerificationResult where
  wallet : String
  status : Status
  totalEvents : ℕ
  firstTamperedEventId : Option String
  deriving DecidableEq, Repr

/-- The first event whose hash is not the one that its fields and the hash before it give. -/
def firstTampered : Option String → List ScoringEvent → Option String
  | _, [] => none
  | prev, e :: es =>
    if computeChainHash prev e.eventId e.wallet e.score e.featureSnapshot e.occurredAt ≠
        e.chainHash then
      some e.eventId
    else firstTampered (some e.chainHash) es

def verify (now : DateTime) (s : Store) (wallet : String) : ChainVerificationResult :=
  let events := replay now s wallet none REPLAY_LIMIT
  if events.length = 0 then ⟨wallet, .noEvents, 0, none⟩
  else
    match firstTampered none events with
    | some eventId => ⟨wallet, .tampered, events.length, some eventId⟩
    | none => ⟨wallet, .valid, events.length, none⟩

/-- The row of an event that is appended after the one with hash `prev`. -/
def arrivingRow (maxKeys : ℕ) (prev : Option String) (e : ScoringEvent) : Row :=
  eventRow (chained prev (truncate maxKeys e))

def latestHash (rows : List Row) : Option String :=
  (latest Row.occurredAt rows).map Row.chainHash

@[simp] theorem truncate_wallet (maxKeys : ℕ) (e : ScoringEvent) :
    (truncate maxKeys e).wallet = e.wallet := by
  unfold truncate
  split_ifs <;> rfl

@[simp] theorem truncate_occurredAt (maxKeys : ℕ) (e : ScoringEvent) :
    (truncate maxKeys e).occurredAt = e.occurredAt := by
  unfold truncate
  split_ifs <;> rfl

@[simp] theorem arrivingRow_wallet (maxKeys : ℕ) (prev : Option String) (e : ScoringEvent) :
    (arrivingRow maxKeys prev e).wallet = e.wallet :=
  truncate_wallet maxKeys e

@[simp] theorem arrivingRow_occurredAt (maxKeys : ℕ) (prev : Option String) (e : ScoringEvent) :
    (arrivingRow maxKeys prev e).occurredAt = e.occurredAt.isoformat :=
  congrArg DateTime.isoformat (truncate_occurredAt maxKeys e)

theorem insert_eq_ok {s s' : Store} {e : ScoringEvent} (h : insert s e = .ok s') :
    s'.rows = s.rows ++ [eventRow e] := by
  unfold insert at h
  split_ifs at h
  cases hinsert : s.insert? (eventRow e) with
  | none =>
    rw [hinsert] at h
    cases h
  | some s'' =>
    rw [hinsert] at h
    obtain rfl := Except.ok.inj h
    exact (UniqueTable.insert?_eq_some hinsert).2

theorem append_eq_ok {now : DateTime} {maxKeys : ℕ} {s s' : Store} {e : ScoringEvent}
    (h : append now maxKeys s e = .ok s') : s'.rows =
      s.rows ++ [arrivingRow maxKeys (latestHash (walletRows s.rows e.wallet)) e] := by
  unfold append at h
  split_ifs at h
  rw [insert_eq_ok h, truncate_wallet, getLatestEvent, Option.map_map]
  rfl

/-- A wallet's rows are made one after the other, each from the ones before it. -/
inductive Arrivals (maxKeys : ℕ) : List ScoringEvent → List Row → Prop where
  | nil : Arrivals maxKeys [] []
  | concat {events : List ScoringEvent} {rows : List Row} (e : ScoringEvent) :
    Arrivals maxKeys events rows →
    Arrivals maxKeys (events ++ [e]) (rows ++ [arrivingRow maxKeys (latestHash rows) e])

def walletEvents (calls : List (DateTime × ScoringEvent)) (wallet : String) : List ScoringEvent :=
  (calls.map Prod.snd).filter fun e => decide (e.wallet = wallet)

theorem arrivals_of_appendAll {maxKeys : ℕ} {calls : List (DateTime × ScoringEvent)} {s : Store}
    (h : appendAll maxKeys calls = .ok s) (wallet : String) :
    Arrivals maxKeys (walletEvents calls wallet) (walletRows s.rows wallet) := by
  refine FallibleRuns.foldlM_invariant (P := fun calls s =>
    Arrivals maxKeys (walletEvents calls wallet) (walletRows s.rows wallet)) .nil ?_ h
  intro seen ⟨now, e⟩ s s' ih hstep
  rw [append_eq_ok hstep]
  unfold walletEvents walletRows at ih ⊢
  rw [List.map_append, List.map_singleton, List.filter_append, List.filter_append]
  rw [List.filter_singleton, List.filter_singleton]
  simp only [arrivingRow_wallet]
  by_cases hwallet : e.wallet = wallet
  · simp only [hwallet, decide_true]
    exact .concat e ih
  · simpa only [hwallet, decide_false, List.append_nil, cond_false] using ih

theorem Arrivals.times {maxKeys : ℕ} {events : List ScoringEvent} {rows : List Row}
    (h : Arrivals maxKeys events rows) : rows.map Row.occurredAt =
      events.map fun e => e.occurredAt.isoformat := by
  induction h with
  | nil => rfl
  | concat e _ ih => rw [List.map_append, List.map_append, ih]; simp

theorem Arrivals.arrived {maxKeys : ℕ} {events : List ScoringEvent} {rows : List Row}
    (h : Arrivals maxKeys events rows) {front back : List Row} {row : Row}
    (hrows : rows = front ++ row :: back) :
    ∃ e, row = arrivingRow maxKeys (latestHash front) e := by
  induction h generalizing back with
  | nil => simp at hrows
  | @concat events rows e _ ih =>
    rcases List.eq_nil_or_concat back with rfl | ⟨back', last, rfl⟩
    · obtain ⟨rfl, hlast⟩ := List.append_inj' hrows rfl
      exact ⟨e, (List.cons.inj hlast).1.symm⟩
    · rw [List.concat_eq_append, ← List.cons_append, ← List.append_assoc] at hrows
      exact ih (List.append_inj' hrows rfl).1

theorem readSnapshot_dumps (features : List (String × Json)) :
    readSnapshot (dumpsSnapshot features) = sortItems features := by
  unfold readSnapshot dumpsSnapshot
  rw [loads_render Separators.blank_compact]
  exact Members.toList_ofList _

theorem chainPayload_sortItems (previous : Option String) (eventId wallet : String) (score : ℤ)
    (features : List (String × Json)) (occurredAt : String) :
    chainPayload previous eventId wallet score (sortItems features) occurredAt =
      chainPayload previous eventId wallet score features occurredAt := by
  unfold chainPayload sortItems
  rw [inKeyOrder_idem]

theorem readTime_isoformat (now d : DateTime) :
    readTime now d.isoformat = if d.Aware then d else d.replaceUtc := by
  unfold readTime
  rw [fromisoformat_isoformat, Option.getD_some]
  by_cases haware : d.Aware
  · rw [if_pos haware, if_neg (show ¬ d.offset = none from haware)]
  · rw [if_neg haware, if_pos (not_not.mp haware)]

theorem isoformat_inj {d d' : DateTime} (h : d.isoformat = d'.isoformat) : d = d' := by
  rw [← Option.some_inj, ← fromisoformat_isoformat, h, fromisoformat_isoformat]

theorem readTime_isoformat_iff (now d : DateTime) :
    (readTime now d.isoformat).isoformat = d.isoformat ↔ d.Aware := by
  rw [readTime_isoformat]
  by_cases haware : d.Aware
  · rw [if_pos haware]
    exact iff_of_true rfl haware
  · rw [if_neg haware]
    refine iff_of_false (fun heq => ?_) haware
    have hoffset := congrArg DateTime.offset (isoformat_inj heq)
    rw [not_not.mp haware] at hoffset
    cases hoffset

/-- The text that a row's hash is taken over, after the hash `previous` and for the time `at`. -/
def Row.payload (row : Row) (previous : Option String) (occurredAt : String) : List Char :=
  chainPayload previous row.eventId row.wallet row.score (readSnapshot row.featureSnapshot)
    occurredAt

theorem chainPayload_members (previous : Option String) (eventId wallet : String) (score : ℤ)
    (features : List (String × Json)) (occurredAt : String) :
    chainPayload previous eventId wallet score features occurredAt =
      (Json.object (.ofList [
        ("event_id", .string eventId),
        ("features", sortKeys (.object (.ofList (sortItems features)))),
        ("occurred_at", .string occurredAt),
        ("prev", .string (prevText previous)),
        ("score", .number (.ofInt score)),
        ("wallet", .string wallet)])).render .compact := by
  simp [chainPayload, sortKeys, sortMembers, Members.ofList, sortItems, inKeyOrder, KeyLe,
    List.insertionSort]

theorem Row.payload_inj {row : Row} {prev prev' : Option String} {time time' : String}
    (h : row.payload prev time = row.payload prev' time') :
    prevText prev = prevText prev' ∧ time = time' := by
  unfold Row.payload at h
  rw [chainPayload_members, chainPayload_members] at h
  have hmembers := Members.ofList_inj (Json.object.inj (Json.render_inj h))
  simp only [List.cons.injEq, Prod.mk.injEq, Json.string.injEq, true_and, and_true] at hmembers
  exact ⟨hmembers.2, hmembers.1⟩

theorem prevText_some {hash : String} (h : hash.length = 64) : prevText (some hash) = hash := by
  have hne : hash ≠ "" := by
    rintro rfl
    cases h
  exact if_neg hne

theorem prevText_inj {prev prev' : Option String} (h : ∀ hash ∈ prev, hash.length = 64)
    (h' : ∀ hash ∈ prev', hash.length = 64) (heq : prevText prev = prevText prev') :
    prev = prev' := by
  have genesis {hash : String} (hlength : hash.length = 64) : "GENESIS" ≠ hash := by
    rintro rfl
    cases hlength
  cases prev with
  | none =>
    cases prev' with
    | none => rfl
    | some hash =>
      rw [prevText_some (h' hash rfl)] at heq
      exact absurd heq (genesis (h' hash rfl))
  | some hash =>
    rw [prevText_some (h hash rfl)] at heq
    cases prev' with
    | none => exact absurd heq.symm (genesis (h hash rfl))
    | some hash' => rw [heq, prevText_some (h' hash' rfl)]

theorem arrivingRow_hash (maxKeys : ℕ) (prev : Option String) (e : ScoringEvent) :
    (arrivingRow maxKeys prev e).chainHash = digest ((arrivingRow maxKeys prev e).payload prev
      (arrivingRow maxKeys prev e).occurredAt) := by
  unfold Row.payload
  have hsnapshot := readSnapshot_dumps (truncate maxKeys e).featureSnapshot
  have hread : readSnapshot (arrivingRow maxKeys prev e).featureSnapshot =
    sortItems (truncate maxKeys e).featureSnapshot := hsnapshot
  rw [hread, chainPayload_sortItems]
  rfl

theorem length_digest (text : List Char) : (digest text).length = 64 := length_hexdigest _

def CollisionFree (texts : List (List Char)) : Prop :=
  ∀ t ∈ texts, ∀ t' ∈ texts, digest t = digest t' → t = t'

/-- An event that is read back has the hash of its row exactly after the predecessor that it was
appended to, its time being read as it was written. -/
theorem hash_matches_iff {now : DateTime} {row : Row} {prev pred : Option String}
    (hprev : ∀ hash ∈ prev, hash.length = 64) (hpred : ∀ hash ∈ pred, hash.length = 64)
    (hhash : row.chainHash = digest (row.payload pred row.occurredAt))
    (hfree : digest (row.payload prev (readTime now row.occurredAt).isoformat) =
        digest (row.payload pred row.occurredAt) →
      row.payload prev (readTime now row.occurredAt).isoformat =
        row.payload pred row.occurredAt) :
    digest (row.payload prev (readTime now row.occurredAt).isoformat) = row.chainHash ↔
      (readTime now row.occurredAt).isoformat = row.occurredAt ∧ pred = prev := by
  constructor
  · intro heq
    rw [hhash] at heq
    obtain ⟨htexts, htime⟩ := Row.payload_inj (hfree heq)
    exact ⟨htime, (prevText_inj hprev hpred htexts).symm⟩
  · rintro ⟨htime, rfl⟩
    rw [htime, hhash]

/-- What the verifier hashes for rows that follow the hash `prev`. -/
def verifiedTexts (now : DateTime) : Option String → List Row → List (List Char)
  | _, [] => []
  | prev, row :: rows => row.payload prev (readTime now row.occurredAt).isoformat ::
    verifiedTexts now (some row.chainHash) rows

theorem verifiedTexts_of_linked {now : DateTime} {pred : Row → Option String} {prev : Option String}
    {rows : List Row} (hlinked : Linked pred (fun r => some r.chainHash) prev rows)
    (htimes : ∀ row ∈ rows, (readTime now row.occurredAt).isoformat = row.occurredAt) :
    verifiedTexts now prev rows = rows.map fun row => row.payload (pred row) row.occurredAt := by
  induction rows generalizing prev with
  | nil => rfl
  | cons row rows ih =>
    obtain ⟨hhead, htail⟩ := List.forall_mem_cons.mp htimes
    obtain ⟨rfl, hrest⟩ := hlinked
    rw [verifiedTexts, ih hrest htail, hhead, List.map_cons]

theorem firstTampered_eq_none_iff {now : DateTime} {pred : Row → Option String}
    {replayed : List Row} (hlength : ∀ row ∈ replayed, row.chainHash.length = 64)
    (hpred : ∀ row ∈ replayed, ∀ hash ∈ pred row, hash.length = 64)
    (hhash : ∀ row ∈ replayed, row.chainHash = digest (row.payload (pred row) row.occurredAt))
    {prev : Option String} (hprev : ∀ hash ∈ prev, hash.length = 64)
    (hfree : ∀ t ∈ verifiedTexts now prev replayed, ∀ row ∈ replayed,
      digest t = digest (row.payload (pred row) row.occurredAt) →
        t = row.payload (pred row) row.occurredAt) :
    firstTampered prev (replayed.map (fromRow now)) = none ↔
      (∀ row ∈ replayed, (readTime now row.occurredAt).isoformat = row.occurredAt) ∧
        Linked pred (fun r => some r.chainHash) prev replayed := by
  induction replayed generalizing prev with
  | nil => simp [firstTampered, Linked]
  | cons row replayed ih =>
    have hmatch := hash_matches_iff hprev (hpred row List.mem_cons_self)
      (hhash row List.mem_cons_self) (hfree _ List.mem_cons_self row List.mem_cons_self)
    have hnext : ∀ hash ∈ some row.chainHash, hash.length = 64 := by
      intro hash hhash
      obtain rfl := Option.mem_some_iff.mp hhash
      exact hlength row List.mem_cons_self
    have hrest := ih (fun r hr => hlength r (List.mem_cons_of_mem _ hr))
      (fun r hr => hpred r (List.mem_cons_of_mem _ hr))
      (fun r hr => hhash r (List.mem_cons_of_mem _ hr)) hnext
      (fun t ht r hr => hfree t (List.mem_cons_of_mem _ ht) r (List.mem_cons_of_mem _ hr))
    rw [List.map_cons, firstTampered]
    split_ifs with htampered
    · have hno := mt hmatch.mpr htampered
      simp only [List.forall_mem_cons, Linked, false_iff]
      rintro ⟨⟨htime, -⟩, hlink, -⟩
      exact hno ⟨htime, hlink⟩
    · obtain ⟨htime, hlink⟩ := hmatch.mp (not_not.mp htampered)
      rw [List.forall_mem_cons, Linked]
      exact hrest.trans ⟨fun h => ⟨⟨htime, h.1⟩, hlink, h.2⟩, fun h => ⟨h.1.2, h.2.2⟩⟩

/-- The first times, as many as the verifier replays, have offsets, are in the order of their
texts and come before all later ones. -/
structure ReplaysInOrder (times : List DateTime) : Prop where
  aware : ∀ d ∈ times.take REPLAY_LIMIT, d.Aware
  ordered : ArriveInOrder DateTime.isoformat REPLAY_LIMIT times

theorem mem_rows_of_mem_walletRows {rows : List Row} {wallet : String} {row : Row}
    (h : row ∈ walletRows rows wallet) : row ∈ rows := (List.mem_filter.mp h).1

def replayedRows (s : Store) (wallet : String) : List Row :=
  (inKeyOrder Row.occurredAt (walletRows s.rows wallet)).take REPLAY_LIMIT

def appendedAfter (s : Store) (wallet : String) (row : Row) : Option String :=
  predecessor Row.occurredAt Row.chainHash (walletRows s.rows wallet) row

def hashedTexts (now : DateTime) (s : Store) (wallet : String) : List (List Char) :=
  (walletRows s.rows wallet).map (fun row => row.payload (appendedAfter s wallet row)
    row.occurredAt) ++ verifiedTexts now none (replayedRows s wallet)

theorem replay_eq (now : DateTime) (s : Store) (wallet : String) :
    replay now s wallet none REPLAY_LIMIT =
      (replayedRows s wallet).map (fromRow now) := by
  simp [replay, replayedRows]

section

variable {maxKeys : ℕ} {calls : List (DateTime × ScoringEvent)} {s : Store}

theorem length_chainHash (h : appendAll maxKeys calls = .ok s) :
    ∀ row ∈ s.rows, row.chainHash.length = 64 := by
  intro row hrow
  have hwallet : row ∈ walletRows s.rows row.wallet :=
    List.mem_filter.mpr ⟨hrow, decide_eq_true rfl⟩
  obtain ⟨front, back, hsplit⟩ := List.append_of_mem hwallet
  obtain ⟨e, rfl⟩ := (arrivals_of_appendAll h row.wallet).arrived hsplit
  rw [arrivingRow_hash]
  exact length_digest _

theorem chainHash_nodup (s : Store) (wallet : String) :
    ((walletRows s.rows wallet).map Row.chainHash).Nodup := by
  apply List.Nodup.sublist (List.filter_sublist.map _)
  rw [List.Nodup, List.pairwise_map]
  exact s.distinct.imp fun hno heq => hno (.inr heq)

theorem verify_valid_iff_untampered (now : DateTime) (s : Store) (wallet : String)
    (hrows : walletRows s.rows wallet ≠ []) : (verify now s wallet).status = .valid ↔
      firstTampered none (replay now s wallet none REPLAY_LIMIT) = none := by
  have hlength : (replay now s wallet none REPLAY_LIMIT).length ≠ 0 := by
    rw [replay_eq, List.length_map, replayedRows, List.length_take, length_inKeyOrder]
    have := List.length_pos_of_ne_nil hrows
    unfold REPLAY_LIMIT
    omega
  simp only [verify, if_neg hlength]
  cases firstTampered none (replay now s wallet none REPLAY_LIMIT) <;> simp

/-- Of a wallet's rows in the order of their times, the first ones are its first ones and keep
their times, exactly where the events of the wallet replay in order. -/
theorem Arrivals.replaysInOrder_iff {events : List ScoringEvent} {rows : List Row}
    (h : Arrivals maxKeys events rows) (now : DateTime) :
    (∀ row ∈ (inKeyOrder Row.occurredAt rows).take REPLAY_LIMIT,
      (readTime now row.occurredAt).isoformat = row.occurredAt) ∧
        ArriveInOrder Row.occurredAt REPLAY_LIMIT rows ↔
      ReplaysInOrder (events.map ScoringEvent.occurredAt) := by
  have htexts : rows.map Row.occurredAt =
      (events.map ScoringEvent.occurredAt).map DateTime.isoformat := by
    rw [h.times, List.map_map]
    rfl
  have horder : ArriveInOrder Row.occurredAt REPLAY_LIMIT rows ↔
      ArriveInOrder DateTime.isoformat REPLAY_LIMIT (events.map ScoringEvent.occurredAt) := by
    have hrows := @arriveInOrder_map _ _ _ id _ Row.occurredAt REPLAY_LIMIT rows
    rw [htexts, arriveInOrder_map] at hrows
    exact hrows.symm
  have htimes (hin : ArriveInOrder Row.occurredAt REPLAY_LIMIT rows) :
      (∀ row ∈ (inKeyOrder Row.occurredAt rows).take REPLAY_LIMIT,
        (readTime now row.occurredAt).isoformat = row.occurredAt) ↔
      ∀ d ∈ (events.map ScoringEvent.occurredAt).take REPLAY_LIMIT, d.Aware := by
    have hfirst : ((inKeyOrder Row.occurredAt rows).take REPLAY_LIMIT).map Row.occurredAt =
        ((events.map ScoringEvent.occurredAt).take REPLAY_LIMIT).map DateTime.isoformat := by
      rw [take_inKeyOrder_iff.mpr hin, List.map_take, htexts, List.map_take]
    rw [← List.forall_mem_map (P := fun t => (readTime now t).isoformat = t), hfirst,
      List.forall_mem_map]
    simp only [readTime_isoformat_iff]
  constructor
  · rintro ⟨hread, hin⟩
    exact ⟨(htimes hin).mp hread, horder.mp hin⟩
  · rintro ⟨haware, hin⟩
    exact ⟨(htimes (horder.mpr hin)).mpr haware, horder.mpr hin⟩

theorem mem_walletRows_of_mem_replayedRows {wallet : String} {row : Row}
    (h : row ∈ replayedRows s wallet) : row ∈ walletRows s.rows wallet :=
  mem_inKeyOrder.mp (List.mem_of_mem_take h)

theorem chainHash_eq_digest (h : appendAll maxKeys calls = .ok s) {wallet : String} {row : Row}
    (hrow : row ∈ walletRows s.rows wallet) :
    row.chainHash = digest (row.payload (appendedAfter s wallet row) row.occurredAt) := by
  obtain ⟨front, back, hsplit⟩ := List.append_of_mem hrow
  obtain ⟨e, he⟩ := (arrivals_of_appendAll h wallet).arrived hsplit
  have hnodup := (chainHash_nodup s wallet).of_map
  rw [hsplit] at hnodup
  rw [appendedAfter, hsplit, predecessor_eq hnodup, he]
  exact arrivingRow_hash maxKeys _ e

/-- The chain hashes are unique, so that a replay in order meets no collision. -/
theorem collisionFree_of_in_order (h : appendAll maxKeys calls = .ok s) {wallet : String}
    (now : DateTime)
    (hin : ReplaysInOrder ((walletEvents calls wallet).map ScoringEvent.occurredAt)) :
    CollisionFree (hashedTexts now s wallet) := by
  have hnodup := chainHash_nodup s wallet
  obtain ⟨htimes, harrive⟩ := ((arrivals_of_appendAll h wallet).replaysInOrder_iff now).mpr hin
  have hlinked := (linked_replay_iff hnodup).mpr harrive
  have hknown : ∀ t ∈ hashedTexts now s wallet, ∃ row ∈ walletRows s.rows wallet,
      row.payload (appendedAfter s wallet row) row.occurredAt = t := by
    intro t ht
    rcases List.mem_append.mp ht with ht | ht
    · exact List.mem_map.mp ht
    · rw [replayedRows, verifiedTexts_of_linked hlinked htimes] at ht
      obtain ⟨row, hrow, rfl⟩ := List.mem_map.mp ht
      exact ⟨row, mem_walletRows_of_mem_replayedRows hrow, rfl⟩
  intro t ht t' ht' heq
  obtain ⟨row, hrow, rfl⟩ := hknown t ht
  obtain ⟨row', hrow', rfl⟩ := hknown t' ht'
  rw [← chainHash_eq_digest h hrow, ← chainHash_eq_digest h hrow'] at heq
  rw [List.inj_on_of_nodup_map hnodup hrow hrow' heq]

theorem verify_valid_iff_in_order (h : appendAll maxKeys calls = .ok s) {wallet : String}
    (hwallet : walletEvents calls wallet ≠ []) {now : DateTime}
    (hfree : CollisionFree (hashedTexts now s wallet)) : (verify now s wallet).status = .valid ↔
      ReplaysInOrder ((walletEvents calls wallet).map ScoringEvent.occurredAt) := by
  have harrivals := arrivals_of_appendAll h wallet
  have hrows : walletRows s.rows wallet ≠ [] := by
    intro hempty
    have htimes := harrivals.times
    rw [hempty] at htimes
    exact hwallet (List.map_eq_nil_iff.mp htimes.symm)
  have hmem : ∀ row ∈ replayedRows s wallet, row ∈ walletRows s.rows wallet :=
    fun _ => mem_walletRows_of_mem_replayedRows
  have hlength : ∀ row ∈ walletRows s.rows wallet, row.chainHash.length = 64 :=
    fun row hrow => length_chainHash h row (mem_rows_of_mem_walletRows hrow)
  have hpred : ∀ row, ∀ hash ∈ appendedAfter s wallet row, hash.length = 64 := by
    rintro row hash hhash
    obtain ⟨r, hr, rfl⟩ := Option.map_eq_some_iff.mp hhash
    exact hlength r ((List.takeWhile_prefix _).subset (latest_mem hr))
  rw [verify_valid_iff_untampered now s wallet hrows, replay_eq,
    firstTampered_eq_none_iff (fun row hrow => hlength row (hmem row hrow))
      (fun row _ => hpred row) (fun row hrow => chainHash_eq_digest h (hmem row hrow))
      (fun _ hnone => absurd hnone (Option.not_mem_none _))
      (fun t ht row hrow => hfree t (List.mem_append_right _ ht) _
        (List.mem_append_left _ (List.mem_map_of_mem (hmem row hrow))))]
  exact (and_congr_right fun _ => linked_replay_iff (chainHash_nodup s wallet)).trans
    (harrivals.replaysInOrder_iff now)

end

def newYear (hour : ℕ) (offset : Option ℤ) (h : hour < 24 ∧ ValidOffset offset) : DateTime where
  year := 2024
  month := 1
  day := 1
  hour := hour
  minute := 0
  second := 0
  microsecond := 0
  offset := offset
  validDate := by decide
  validClock := ⟨h.1, by decide, by decide, by decide⟩
  validOffset := h.2

def nine : DateTime := newYear 9 (some 0) (by decide)
def ten : DateTime := newYear 10 (some 0) (by decide)

/-- A scoring of the wallet `GA`. -/
def scoring (eventId : String) (occurredAt : DateTime) : DateTime × ScoringEvent :=
  (ten, {
    eventId := eventId
    wallet := "GA"
    namespaceId := "default"
    score := 80
    previousScore := none
    featureSnapshot := []
    modelVersion := "v1"
    triggeredBy := "ingestion"
    actorId := none
    chainHash := ""
    occurredAt := occurredAt
    signature := "" })

theorem appendAll_eq_ok {calls : List (DateTime × ScoringEvent)} {p : Store → Bool}
    (h : (appendAll 50 calls).toOption.any p = true) :
    ∃ s, appendAll 50 calls = .ok s ∧ p s = true := by
  cases hrun : appendAll 50 calls with
  | error e =>
    rw [hrun] at h
    cases h
  | ok s =>
    rw [hrun] at h
    exact ⟨s, rfl, h⟩

theorem verify_valid_iff_in_order_two : ∃ s, appendAll 50 [scoring "1" nine, scoring "2" ten] =
    .ok s ∧ ((verify ten s "GA").status = .valid ↔ ReplaysInOrder [nine, ten]) := by
  have hin : ReplaysInOrder [nine, ten] := ⟨by decide +kernel, by decide +kernel⟩
  obtain ⟨s, hs, -⟩ := appendAll_eq_ok
    (show (appendAll 50 [scoring "1" nine, scoring "2" ten]).toOption.any (fun _ => true) = true by
      decide +kernel)
  have hwallet : walletEvents [scoring "1" nine, scoring "2" ten] "GA" ≠ [] :=
    List.cons_ne_nil _ _
  exact ⟨s, hs, verify_valid_iff_in_order hs hwallet (collisionFree_of_in_order hs ten hin)⟩

/-- An event with an earlier time than the one before it. -/
theorem honest_events_reported_tampered : ¬ ∀ (maxKeys : ℕ)
    (calls : List (DateTime × ScoringEvent)) (s : Store), appendAll maxKeys calls = .ok s →
    ∀ wallet, walletEvents calls wallet ≠ [] → ∀ now, (verify now s wallet).status = .valid := by
  intro hclaim
  obtain ⟨s, hs, hlate⟩ := appendAll_eq_ok
    (show (appendAll 50 [scoring "1" ten, scoring "2" nine]).toOption.any
      (fun s => decide ((verify ten s "GA").status = .tampered)) = true by decide +kernel)
  have htampered := of_decide_eq_true hlate
  rw [hclaim 50 _ s hs "GA" (List.cons_ne_nil _ _) ten] at htampered
  cases htampered

end ScoringEvents
