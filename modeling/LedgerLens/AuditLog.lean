import LedgerLens.HashChain
import LedgerLens.JsonText
import LedgerLens.Sha256
import Mathlib.Data.List.TakeDrop

/-!
# The audit log

`storage/audit_log.py`: appending entries, each signed over its columns and the hash of the entry
before it, and the verification of a table that may have been tampered with. Timestamps are their
ISO texts.
-/
namespace AuditLog

open HashChain JsonText Sha256

def GENESIS_PREV_HASH : String := "genesis"

/-- The text of a float, which is never that of an integer. -/
structure RealText where
  text : NumberText
  fractional : ∀ i : ℤ, text ≠ .ofInt i
  deriving DecidableEq

/-- A value as SQLite stores it. -/
inductive Cell where
  | null
  | int (i : ℤ)
  | real (r : RealText)
  | text (s : String)
  | blob
  deriving DecidableEq

/-- The signed columns. -/
structure Record where
  timestamp : Cell
  eventType : Cell
  actor : Cell
  wallet : Cell
  score : Cell
  prevHash : Cell
  justification : Cell
  deriving DecidableEq

structure Row where
  id : ℤ
  record : Record
  entryHash : Cell
  deriving DecidableEq

/-- JSON has no byte strings. -/
def Cell.json : Cell → Option Json
  | .null => some .null
  | .int i => some (.number (.ofInt i))
  | .real r => some (.number r.text)
  | .text s => some (.string s)
  | .blob => none

theorem Cell.json_inj {c d : Cell} {v : Json} (hc : c.json = some v) (hd : d.json = some v) :
    c = d := by
  have h : c.json = d.json := hc.trans hd.symm
  cases c <;> cases d <;> simp only [Cell.json, Option.some.injEq, Json.number.injEq,
    Json.string.injEq, reduceCtorEq] at h hc
  · rfl
  · exact congrArg Cell.int (NumberText.ofInt_inj h)
  · rename_i i r
    exact absurd h.symm (r.fractional i)
  · rename_i r i
    exact absurd h (r.fractional i)
  · rename_i r r'
    obtain ⟨t, ht⟩ := r
    obtain rfl : t = r'.text := h
    rfl
  · exact congrArg Cell.text h

/-- The signed columns as JSON members in the order of their names; a null justification is left
out. -/
def Record.members (r : Record) : Option (List (String × Json)) := do
  let actor ← r.actor.json
  let eventType ← r.eventType.json
  let justification ← r.justification.json
  let prevHash ← r.prevHash.json
  let score ← r.score.json
  let timestamp ← r.timestamp.json
  let wallet ← r.wallet.json
  pure ([("actor", actor), ("event_type", eventType)] ++
    (if r.justification = .null then [] else [("justification", justification)]) ++
    [("prev_hash", prevHash), ("score", score), ("timestamp", timestamp), ("wallet", wallet)])

theorem Record.members_inj {r r' : Record} {ms : List (String × Json)}
    (h : r.members = some ms) (h' : r'.members = some ms) : r = r' := by
  simp only [Record.members, Option.bind_eq_bind, Option.bind_eq_some_iff, Option.pure_def,
    Option.some.injEq] at h h'
  obtain ⟨actor, ha, event, he, just, hj, prev, hp, score, hs, time, ht, wallet, hw, rfl⟩ := h
  obtain ⟨actor', ha', event', he', just', hj', prev', hp', score', hs', time', ht', wallet',
    hw', hms⟩ := h'
  have hjust : r.justification = r'.justification ∧ actor' = actor ∧ event' = event ∧
      prev' = prev ∧ score' = score ∧ time' = time ∧ wallet' = wallet := by
    split_ifs at hms with hnull' hnull <;> simp at hms
    · exact ⟨hnull.trans hnull'.symm, by simp_all⟩
    · obtain ⟨rfl, rfl, rfl, rfl, rfl, rfl, rfl⟩ := hms
      exact ⟨Cell.json_inj hj hj', rfl, rfl, rfl, rfl, rfl, rfl⟩
  obtain ⟨hjust, rfl, rfl, rfl, rfl, rfl, rfl⟩ := hjust
  cases r
  cases r'
  simp only [Record.mk.injEq]
  exact ⟨Cell.json_inj ht ht', Cell.json_inj he he', Cell.json_inj ha ha', Cell.json_inj hw hw',
    Cell.json_inj hs hs', Cell.json_inj hp hp', hjust⟩

/-- `_canonical_json` of the signed columns; a byte string in one of them raises. -/
def canonicalJson (r : Record) : Option (List Char) :=
  r.members.map fun ms => (Json.object (.ofList ms)).render .compact

theorem canonicalJson_inj {r r' : Record} {text : List Char} (h : canonicalJson r = some text)
    (h' : canonicalJson r' = some text) : r = r' := by
  obtain ⟨ms, hms, rfl⟩ := Option.map_eq_some_iff.mp h
  obtain ⟨ms', hms', heq⟩ := Option.map_eq_some_iff.mp h'
  obtain rfl := Members.ofList_inj (Json.object.inj (Json.render_inj heq))
  exact Record.members_inj hms hms'

def sign (secret : List UInt8) (text : List Char) : String :=
  hexdigest (hmac secret (text.map fun c => c.toNat.toUInt8))

def computeEntryHash (secret : List UInt8) (r : Record) : Option String :=
  (canonicalJson r).map (sign secret)

theorem sign_ne_genesis (secret : List UInt8) (text : List Char) :
    sign secret text ≠ GENESIS_PREV_HASH := by
  intro h
  have hlength := congrArg String.length h
  rw [sign, length_hexdigest] at hlength
  exact absurd hlength (by decide)

/-- `audit_log`, rows in the order of their ids. -/
structure Table where
  rows : List Row
  sequence : ℤ
  sorted : (rows.map Row.id).Pairwise (· < ·)
  bounded : ∀ r ∈ rows, r.id ≤ sequence

def Table.empty : Table := ⟨[], 0, .nil, fun _ h => absurd h List.not_mem_nil⟩

/-- `INSERT`, refused where the entry hash is there already. -/
def Table.insert? (t : Table) (record : Record) (entryHash : Cell) : Option Table :=
  if entryHash ∈ t.rows.map Row.entryHash then none
  else some {
    rows := t.rows ++ [⟨t.sequence + 1, record, entryHash⟩]
    sequence := t.sequence + 1
    sorted := by
      rw [List.map_append, List.pairwise_append]
      refine ⟨t.sorted, List.pairwise_singleton _ _, ?_⟩
      intro i hi j hj
      obtain ⟨r, hr, rfl⟩ := List.mem_map.mp hi
      obtain rfl : j = t.sequence + 1 := List.mem_singleton.mp hj
      exact Int.lt_add_one_of_le (t.bounded r hr)
    bounded := by
      intro r hr
      rcases List.mem_append.mp hr with hr | hr
      · exact (t.bounded r hr).trans (Int.le_of_lt (Int.lt_succ _))
      · obtain rfl := List.mem_singleton.mp hr
        exact le_rfl }

def genesisRecord (timestamp : String) : Record where
  timestamp := .text timestamp
  eventType := .text "genesis"
  actor := .text "system"
  wallet := .null
  score := .null
  prevHash := .text GENESIS_PREV_HASH
  justification := .null

def initDb (secret : List UInt8) (t : Table) (now : String) : Table :=
  if t.rows = [] then
    match computeEntryHash secret (genesisRecord now) with
    | none => t
    | some hash => (t.insert? (genesisRecord now) (.text hash)).getD t
  else t

structure Entry where
  eventType : String
  actor : String
  wallet : Option String
  score : Option ℤ
  justification : Option String
  deriving DecidableEq

def textCell (s : Option String) : Cell := s.elim .null .text

def Entry.record (e : Entry) (timestamp : String) (prevHash : Cell) : Record where
  timestamp := .text timestamp
  eventType := .text e.eventType
  actor := .text e.actor
  wallet := textCell e.wallet
  score := e.score.elim .null .int
  prevHash := prevHash
  justification := textCell e.justification

inductive Error where
  | notSerializable
  | scoreOutOfRange
  | integrityError
  deriving DecidableEq, Repr

/-- SQLite stores integers of 64 bits. -/
def Entry.Storable (e : Entry) : Prop := ∀ i ∈ e.score, -2 ^ 63 ≤ i ∧ i < 2 ^ 63

instance (e : Entry) : Decidable e.Storable := by
  unfold Entry.Storable
  infer_instance

def lastHash (rows : List Row) : Cell := lastTag Row.entryHash (.text GENESIS_PREV_HASH) rows

def appendEntry (secret : List UInt8) (t : Table) (e : Entry) (initAt now : String) :
    Except Error (Record × String) × Table :=
  let t := initDb secret t initAt
  let record := e.record now (lastHash t.rows)
  match computeEntryHash secret record with
  | none => (.error .notSerializable, t)
  | some hash =>
    if ¬ e.Storable then (.error .scoreOutOfRange, t)
    else
      match t.insert? record (.text hash) with
      | none => (.error .integrityError, t)
      | some t' => (.ok (record, hash), t')

inductive ChainError where
  | hashMismatch (id : ℤ) (stored : Cell) (computed : String)
  | notGenesis (id : ℤ) (prevHash : Cell)
  | brokenLink (id : ℤ) (prevHash previous : Cell)
  deriving DecidableEq

structure Result where
  id : ℤ
  entryHash : Cell
  computedHash : String
  prevHashOk : Bool
  hashOk : Bool
  error : Option ChainError
  deriving DecidableEq

def expectedPrev (previous : Cell) : Cell :=
  if previous = .null then .text GENESIS_PREV_HASH else previous

/-- A broken link hides a wrong hash. -/
def verifyRow (secret : List UInt8) (previous : Cell) (row : Row) : Option Result := do
  let computed ← computeEntryHash secret row.record
  pure {
    id := row.id
    entryHash := row.entryHash
    computedHash := computed
    prevHashOk := row.record.prevHash = expectedPrev previous
    hashOk := row.entryHash = .text computed
    error :=
      if row.record.prevHash ≠ expectedPrev previous then
        if previous = .null then some (.notGenesis row.id row.record.prevHash)
        else some (.brokenLink row.id row.record.prevHash previous)
      else if row.entryHash ≠ .text computed then
        some (.hashMismatch row.id row.entryHash computed)
      else none }

def verifyRows (secret : List UInt8) : Cell → List Row → Option (List Result)
  | _, [] => some []
  | previous, row :: rows => do
    let result ← verifyRow secret previous row
    let results ← verifyRows secret row.entryHash rows
    pure (result :: results)

def verifyChain (secret : List UInt8) (t : Table) (now : String) : Option (List Result) :=
  verifyRows secret .null (initDb secret t now).rows

def isChainIntact (secret : List UInt8) (t : Table) (now : String) : Option Bool :=
  (verifyChain secret t now).map fun results => results.all fun r => r.error.isNone

def Sealed (secret : List UInt8) (row : Row) : Prop :=
  ∃ hash, computeEntryHash secret row.record = some hash ∧ row.entryHash = .text hash

def Chained (root : Cell) (rows : List Row) : Prop :=
  Linked (fun r : Row => r.record.prevHash) Row.entryHash root rows

theorem verifyRow_ok_iff {secret : List UInt8} {previous : Cell} {row : Row} :
    (∃ result, verifyRow secret previous row = some result ∧ result.error = none) ↔
      Sealed secret row ∧ row.record.prevHash = expectedPrev previous := by
  unfold verifyRow Sealed
  cases computeEntryHash secret row.record with
  | none => simp
  | some hash =>
    by_cases hprev : row.record.prevHash = expectedPrev previous
    · by_cases hhash : row.entryHash = .text hash <;> simp [hprev, hhash]
    · by_cases hnull : previous = .null
      · subst hnull
        simp [hprev]
      · simp [hprev, hnull]

theorem Sealed.expectedPrev {secret : List UInt8} {row : Row} (h : Sealed secret row) :
    AuditLog.expectedPrev row.entryHash = row.entryHash := by
  obtain ⟨hash, -, heq⟩ := h
  rw [heq]
  rfl

theorem verifyRows_ok_iff {secret : List UInt8} {previous : Cell} {rows : List Row} :
    (∃ results, verifyRows secret previous rows = some results ∧
        ∀ r ∈ results, r.error = none) ↔
      (∀ row ∈ rows, Sealed secret row) ∧ Chained (expectedPrev previous) rows := by
  induction rows generalizing previous with
  | nil => simp [verifyRows, Chained, Linked]
  | cons row rows ih =>
    constructor
    · rintro ⟨results, hresults, hok⟩
      simp only [verifyRows, Option.bind_eq_bind, Option.bind_eq_some_iff, Option.pure_def,
        Option.some.injEq] at hresults
      obtain ⟨result, hresult, rest, hrest, rfl⟩ := hresults
      obtain ⟨hsealed, hprev⟩ := verifyRow_ok_iff.mp ⟨result, hresult, hok _ List.mem_cons_self⟩
      obtain ⟨hall, hlinked⟩ := ih.mp ⟨rest, hrest, fun r hr => hok r (List.mem_cons_of_mem _ hr)⟩
      rw [hsealed.expectedPrev] at hlinked
      exact ⟨List.forall_mem_cons.mpr ⟨hsealed, hall⟩, hprev, hlinked⟩
    · rintro ⟨hall, hprev, hlinked⟩
      obtain ⟨hsealed, hall⟩ := List.forall_mem_cons.mp hall
      obtain ⟨result, hresult, hok⟩ := verifyRow_ok_iff.mpr ⟨hsealed, hprev⟩
      obtain ⟨rest, hrest, hoks⟩ := ih.mpr ⟨hall, hsealed.expectedPrev.symm ▸ hlinked⟩
      refine ⟨result :: rest, ?_, List.forall_mem_cons.mpr ⟨hok, hoks⟩⟩
      simp [verifyRows, hresult, hrest]

theorem isChainIntact_iff {secret : List UInt8} {t : Table} {now : String} :
    isChainIntact secret t now = some true ↔
      (∀ row ∈ (initDb secret t now).rows, Sealed secret row) ∧
        Chained (.text GENESIS_PREV_HASH) (initDb secret t now).rows := by
  have h := @verifyRows_ok_iff secret .null (initDb secret t now).rows
  rw [expectedPrev, if_pos rfl] at h
  rw [← h, isChainIntact, verifyChain]
  simp [Option.map_eq_some_iff, List.all_eq_true]

/-- One call of `append_entry` with the times its two parts run at. -/
structure Call where
  entry : Entry
  initAt : String
  now : String

def honestLog (secret : List UInt8) (calls : List Call) : Table :=
  calls.foldl (fun t c => (appendEntry secret t c.entry c.initAt c.now).2) .empty

def firstIds (n : ℕ) : List ℤ := (List.range n).map fun i : ℕ => (i : ℤ) + 1

/-- What holds of a log that nobody tampered with. -/
structure Honest (secret : List UInt8) (t : Table) : Prop where
  rowsSealed : ∀ row ∈ t.rows, Sealed secret row
  chained : Chained (.text GENESIS_PREV_HASH) t.rows
  hashes : (t.rows.map Row.entryHash).Nodup
  ids : t.rows.map Row.id = firstIds t.rows.length
  sequence : t.sequence = t.rows.length

theorem Honest.empty (secret : List UInt8) : Honest secret .empty :=
  ⟨fun _ h => absurd h List.not_mem_nil, trivial, List.nodup_nil, rfl, rfl⟩

theorem firstIds_succ (n : ℕ) : firstIds (n + 1) = firstIds n ++ [(n : ℤ) + 1] := by
  rw [firstIds, List.range_succ, List.map_append]
  rfl

theorem insert?_eq_some {t t' : Table} {record : Record} {entryHash : Cell}
    (h : t.insert? record entryHash = some t') : entryHash ∉ t.rows.map Row.entryHash ∧
      t'.rows = t.rows ++ [⟨t.sequence + 1, record, entryHash⟩] ∧
      t'.sequence = t.sequence + 1 := by
  unfold Table.insert? at h
  split_ifs at h with hnew
  obtain rfl := Option.some.inj h
  exact ⟨hnew, rfl, rfl⟩

theorem Honest.insert {secret : List UInt8} {t t' : Table} {record : Record} {hash : String}
    (h : Honest secret t) (hsign : computeEntryHash secret record = some hash)
    (hprev : record.prevHash = lastHash t.rows)
    (hinsert : t.insert? record (.text hash) = some t') : Honest secret t' := by
  obtain ⟨hnew, hrows, hsequence⟩ := insert?_eq_some hinsert
  constructor
  · intro row hrow
    rw [hrows] at hrow
    rcases List.mem_append.mp hrow with hrow | hrow
    · exact h.rowsSealed row hrow
    · obtain rfl := List.mem_singleton.mp hrow
      exact ⟨hash, hsign, rfl⟩
  · rw [hrows]
    exact linked_concat.mpr ⟨h.chained, hprev⟩
  · rw [hrows, List.map_append, List.nodup_append]
    refine ⟨h.hashes, List.nodup_singleton _, ?_⟩
    rintro c hc d hd rfl
    obtain rfl : c = .text hash := List.mem_singleton.mp hd
    exact hnew hc
  · rw [hrows, List.map_append, h.ids, List.length_append, List.length_singleton, firstIds_succ,
      h.sequence]
    rfl
  · rw [hsequence, h.sequence, hrows]
    simp

theorem initDb_cases (secret : List UInt8) (t : Table) (now : String) :
    initDb secret t now = t ∨ (t.rows = [] ∧ ∃ hash,
      computeEntryHash secret (genesisRecord now) = some hash ∧
      t.insert? (genesisRecord now) (.text hash) = some (initDb secret t now)) := by
  unfold initDb
  by_cases hempty : t.rows = []
  · rw [if_pos hempty]
    cases hsign : computeEntryHash secret (genesisRecord now) with
    | none => exact .inl rfl
    | some hash =>
      dsimp only
      cases hinsert : t.insert? (genesisRecord now) (.text hash) with
      | none => exact .inl rfl
      | some t' => exact .inr ⟨hempty, hash, rfl, hinsert⟩
  · rw [if_neg hempty]
    exact .inl rfl

theorem initDb_ne_nil (secret : List UInt8) (t : Table) (now : String) :
    (initDb secret t now).rows ≠ [] := by
  rcases initDb_cases secret t now with heq | ⟨-, _, -, hinsert⟩
  · intro hnil
    rw [heq] at hnil
    have hsign : ∃ hash, computeEntryHash secret (genesisRecord now) = some hash := ⟨_, rfl⟩
    obtain ⟨hash, hsign⟩ := hsign
    rw [initDb, if_pos hnil, hsign] at heq
    have hrows := congrArg Table.rows heq
    simp [Table.insert?, hnil] at hrows
  · rw [(insert?_eq_some hinsert).2.1]
    exact List.append_ne_nil_of_right_ne_nil _ (List.cons_ne_nil _ _)

theorem appendEntry_ne_nil (secret : List UInt8) (t : Table) (e : Entry) (initAt now : String) :
    (appendEntry secret t e initAt now).2.rows ≠ [] := by
  have hinit := initDb_ne_nil secret t initAt
  unfold appendEntry
  dsimp only
  split
  · exact hinit
  · by_cases hscore : ¬ e.Storable
    · rw [if_pos hscore]
      exact hinit
    · rw [if_neg hscore]
      split
      · exact hinit
      · rename_i hinsert
        rw [(insert?_eq_some hinsert).2.1]
        exact List.append_ne_nil_of_right_ne_nil _ (List.cons_ne_nil _ _)

theorem Honest.initDb {secret : List UInt8} {t : Table} (h : Honest secret t) (now : String) :
    Honest secret (AuditLog.initDb secret t now) := by
  rcases initDb_cases secret t now with heq | ⟨hempty, hash, hsign, hinsert⟩
  · rw [heq]
    exact h
  · apply h.insert hsign _ hinsert
    rw [hempty]
    rfl

theorem Honest.appendEntry {secret : List UInt8} {t : Table} (h : Honest secret t) (e : Entry)
    (initAt now : String) : Honest secret (AuditLog.appendEntry secret t e initAt now).2 := by
  have hinit := h.initDb initAt
  unfold AuditLog.appendEntry
  dsimp only
  split
  · exact hinit
  · rename_i hash hsign
    by_cases hscore : ¬ e.Storable
    · rw [if_pos hscore]
      exact hinit
    · rw [if_neg hscore]
      split
      · exact hinit
      · rename_i t' hinsert
        exact hinit.insert hsign rfl hinsert

theorem honestLog_honest (secret : List UInt8) (calls : List Call) :
    Honest secret (honestLog secret calls) := by
  induction calls using List.reverseRecOn with
  | nil => exact .empty secret
  | append_singleton calls c ih =>
    rw [honestLog, List.foldl_append]
    exact ih.appendEntry c.entry c.initAt c.now

theorem honestLog_ne_nil (secret : List UInt8) {calls : List Call} (h : calls ≠ []) :
    (honestLog secret calls).rows ≠ [] := by
  cases calls using List.reverseRecOn with
  | nil => exact absurd rfl h
  | append_singleton calls c =>
    rw [honestLog, List.foldl_append]
    exact appendEntry_ne_nil _ _ _ _ _

theorem honestLog_intact (secret : List UInt8) (calls : List Call) (now : String) :
    isChainIntact secret (honestLog secret calls) now = some true := by
  have h := (honestLog_honest secret calls).initDb now
  exact isChainIntact_iff.mpr ⟨h.rowsSealed, h.chained⟩

/-- Who does not hold the secret shows only signatures of texts that the log signed. -/
def Unforgeable (secret : List UInt8) (calls : List Call) (t : Table) : Prop :=
  ∀ row ∈ t.rows, ∀ text, canonicalJson row.record = some text →
    row.entryHash = .text (sign secret text) →
    ∃ row' ∈ (honestLog secret calls).rows, canonicalJson row'.record = some text

def Row.content (r : Row) : Record × Cell := (r.record, r.entryHash)

theorem chained_content {root : Cell} {rows : List Row} : Chained root rows ↔
    Linked (fun c : Record × Cell => c.1.prevHash) Prod.snd root (rows.map Row.content) := by
  rw [linked_map]
  exact Iff.rfl

theorem mem_content {secret : List UInt8} {calls : List Call} {t : Table}
    (hunforgeable : Unforgeable secret calls t) {row : Row} (hrow : row ∈ t.rows)
    (hsealed : Sealed secret row) :
    row.content ∈ (honestLog secret calls).rows.map Row.content := by
  obtain ⟨hash, hsign, hentry⟩ := hsealed
  obtain ⟨text, htext, rfl⟩ := Option.map_eq_some_iff.mp hsign
  obtain ⟨row', hrow', htext'⟩ := hunforgeable row hrow text htext hentry
  obtain ⟨hash', hsign', hentry'⟩ := (honestLog_honest secret calls).rowsSealed row' hrow'
  rw [computeEntryHash, htext', Option.map_some, Option.some.injEq] at hsign'
  subst hsign'
  rw [List.mem_map]
  refine ⟨row', hrow', ?_⟩
  rw [Row.content, Row.content, canonicalJson_inj htext' htext, hentry, hentry']

theorem content_prefix {secret : List UInt8} {calls : List Call} {t : Table} {now : String}
    (hunforgeable : Unforgeable secret calls t) (hintact : isChainIntact secret t now = some true) :
    t.rows.map Row.content <+: (honestLog secret calls).rows.map Row.content := by
  by_cases hempty : t.rows = []
  · rw [hempty]
    exact List.nil_prefix
  have hinit : initDb secret t now = t := by
    rcases initDb_cases secret t now with heq | ⟨hnil, -⟩
    · exact heq
    · exact absurd hnil hempty
  obtain ⟨hsealed, hchained⟩ := isChainIntact_iff.mp hintact
  rw [hinit] at hsealed hchained
  have honest := honestLog_honest secret calls
  have hhashes {rows : List Row} :
      (rows.map Row.content).map Prod.snd = rows.map Row.entryHash := by
    rw [List.map_map]
    rfl
  apply (chained_content.mp honest.chained).prefix_of_subset (chained_content.mp hchained)
  · rw [hhashes]
    exact honest.hashes
  · rw [hhashes]
    intro hgenesis
    obtain ⟨row, hrow, heq⟩ := List.mem_map.mp hgenesis
    obtain ⟨hash, hsign, hentry⟩ := honest.rowsSealed row hrow
    obtain ⟨text, -, rfl⟩ := Option.map_eq_some_iff.mp hsign
    exact sign_ne_genesis secret text (Cell.text.inj (hentry.symm.trans heq))
  · intro c hc
    obtain ⟨row, hrow, rfl⟩ := List.mem_map.mp hc
    exact mem_content hunforgeable hrow (hsealed row hrow)

theorem prefix_of_maps {l m : List Row} (hids : l.map Row.id <+: m.map Row.id)
    (hcontents : l.map Row.content <+: m.map Row.content) : l <+: m := by
  induction l generalizing m with
  | nil => exact List.nil_prefix
  | cons a l ih =>
    cases m with
    | nil => exact absurd (List.prefix_nil.mp hids) (by simp)
    | cons b m =>
      obtain ⟨hid, hids⟩ := List.cons_prefix_cons.mp hids
      obtain ⟨hcontent, hcontents⟩ := List.cons_prefix_cons.mp hcontents
      rw [List.cons_prefix_cons]
      refine ⟨?_, ih hids hcontents⟩
      obtain ⟨hrecord, hhash⟩ := Prod.mk.inj hcontent
      cases a
      cases b
      simp only [Row.mk.injEq]
      exact ⟨hid, hrecord, hhash⟩

theorem firstIds_prefix {m n : ℕ} (h : m ≤ n) : firstIds m <+: firstIds n := by
  apply List.IsPrefix.map
  rw [← Nat.min_eq_left h, ← List.take_range]
  exact List.take_prefix m _

/-- Sequential calls build an intact log. A table that passes verification holds exactly the first
rows of it if and only if its ids are 1, 2, …: the id column is not signed. -/
theorem tamper_evident_iff_first_ids (secret : List UInt8) (calls : List Call) :
    (∀ now, isChainIntact secret (honestLog secret calls) now = some true) ∧
      ∀ (t : Table) (now : String), Unforgeable secret calls t →
        isChainIntact secret t now = some true →
          (t.rows <+: (honestLog secret calls).rows ↔
            t.rows.map Row.id = firstIds t.rows.length) := by
  refine ⟨honestLog_intact secret calls, fun t now hunforgeable hintact => ?_⟩
  have honest := honestLog_honest secret calls
  have hcontents := content_prefix hunforgeable hintact
  have hlength : t.rows.length ≤ (honestLog secret calls).rows.length := by
    simpa using hcontents.length_le
  have hfirst : firstIds t.rows.length <+: (honestLog secret calls).rows.map Row.id := by
    rw [honest.ids]
    exact firstIds_prefix hlength
  constructor
  · intro hprefix
    have hids := hprefix.map Row.id
    apply List.IsPrefix.eq_of_length
    · exact List.prefix_of_prefix_length_le hids hfirst (by simp [firstIds])
    · simp [firstIds]
  · intro hids
    exact prefix_of_maps (hids ▸ hfirst) hcontents

/-- Every id is raised by the same amount. -/
def renumber (t : Table) (k : ℕ) : Table where
  rows := t.rows.map fun r => { r with id := r.id + k }
  sequence := t.sequence + k
  sorted := by
    rw [List.map_map, List.pairwise_map]
    exact (List.pairwise_map.mp t.sorted).imp fun hlt => Int.add_lt_add_right hlt k
  bounded := by
    intro r hr
    obtain ⟨r', hr', rfl⟩ := List.mem_map.mp hr
    exact Int.add_le_add_right (t.bounded r' hr') k

theorem renumber_unforgeable (secret : List UInt8) (calls : List Call) (k : ℕ) :
    Unforgeable secret calls (renumber (honestLog secret calls) k) := by
  intro row hrow text htext _
  obtain ⟨row', hrow', rfl⟩ := List.mem_map.mp hrow
  exact ⟨row', hrow', htext⟩

/-- Verification does not see it. -/
theorem renumber_intact (secret : List UInt8) (calls : List Call) (k : ℕ) (now : String)
    (hnonempty : (honestLog secret calls).rows ≠ []) :
    isChainIntact secret (renumber (honestLog secret calls) k) now = some true := by
  have honest := honestLog_honest secret calls
  have hinit : initDb secret (renumber (honestLog secret calls) k) now =
      renumber (honestLog secret calls) k := by
    rw [initDb, if_neg]
    simpa [renumber] using hnonempty
  rw [isChainIntact_iff, hinit]
  constructor
  · intro row hrow
    obtain ⟨row', hrow', rfl⟩ := List.mem_map.mp hrow
    exact honest.rowsSealed row' hrow'
  · apply linked_map.mpr
    exact honest.chained

theorem renumber_not_prefix {t : Table} {k : ℕ} (hk : 0 < k) (hnonempty : t.rows ≠ []) :
    ¬ (renumber t k).rows <+: t.rows := by
  intro hprefix
  have hrows : t.rows.map (fun r => { r with id := r.id + k }) = t.rows :=
    hprefix.eq_of_length (List.length_map _)
  obtain ⟨r, rest, hcons⟩ := List.exists_cons_of_ne_nil hnonempty
  rw [hcons, List.map_cons] at hrows
  have hid := congrArg Row.id (List.cons.inj hrows).1
  dsimp only at hid
  omega

def auditSecret : List UInt8 := List.replicate 32 0x6b

def oneCall : List Call :=
  [⟨⟨"score_computed", "ingest", some "GWALLET", some 87, none⟩, "2024-01-01T00:00:00+00:00",
    "2024-01-01T00:00:01+00:00"⟩]

theorem renumbered_log_not_prefix :
    ¬ ∀ (t : Table) (now : String), Unforgeable auditSecret oneCall t →
      isChainIntact auditSecret t now = some true →
        t.rows <+: (honestLog auditSecret oneCall).rows := by
  intro h
  have hnonempty : (honestLog auditSecret oneCall).rows ≠ [] :=
    honestLog_ne_nil _ (List.cons_ne_nil _ _)
  have hprefix := h (renumber (honestLog auditSecret oneCall) 5) ""
    (renumber_unforgeable _ _ _) (renumber_intact _ _ _ _ hnonempty)
  exact renumber_not_prefix (by decide) hnonempty hprefix

theorem tamper_evident_iff_first_ids_one_call :
    (honestLog auditSecret oneCall).rows <+: (honestLog auditSecret oneCall).rows ↔
      (honestLog auditSecret oneCall).rows.map Row.id =
        firstIds (honestLog auditSecret oneCall).rows.length := by
  have hunforgeable : Unforgeable auditSecret oneCall (honestLog auditSecret oneCall) :=
    fun row hrow text htext _ => ⟨row, hrow, htext⟩
  exact (tamper_evident_iff_first_ids auditSecret oneCall).2 (honestLog auditSecret oneCall)
    "" hunforgeable (honestLog_intact _ _ _)

end AuditLog
