import LedgerLens.ScoringEvents

/-!
# Altered scoring events

`ChainHashVerifier` of `audit/scoring_events.py` on tables in which an event was altered after it
was appended. The texts of an altered row are read by `datetime.fromisoformat` and `json.loads`,
whatever they accept beyond the texts that the store writes.
-/
namespace ScoringTampering

open HashChain IsoTimestamps JsonText ScoringEvents SqlTables StableReplay

/-- `fromisoformat` and `loads`; the first reads what `isoformat` writes. -/
structure Readers where
  fromisoformat : String → Option DateTime
  loads : String → Option Json
  fromisoformat_isoformat : ∀ d : DateTime, fromisoformat d.isoformat = some d

def plainReaders : Readers where
  fromisoformat := IsoTimestamps.fromisoformat
  loads := JsonText.loads
  fromisoformat_isoformat := fromisoformat_isoformat

namespace Readers

variable (py : Readers) (now : DateTime)

/-- A snapshot is read back as the dictionary that was dumped. -/
def RoundTrips (features : List (String × Json)) : Prop :=
  py.loads (dumpsSnapshot features) = some (.object (.ofList (sortItems features)))

/-- An unreadable time is the present one, and a naive one is taken for UTC. -/
def readTime (text : String) : DateTime :=
  let occurred := (py.fromisoformat text).getD now
  if occurred.offset = none then occurred.replaceUtc else occurred

/-- The items of a snapshot, an unreadable one being empty; JSON that is no object has none, and
`items` raises. -/
def features (text : String) : Option (List (String × Json)) :=
  match py.loads text with
  | none => some []
  | some (.object ms) => some ms.toList
  | some _ => none

def payload (previous : Option String) (row : Row) : Option (List Char) :=
  (py.features row.featureSnapshot).map fun features =>
    chainPayload previous row.eventId row.wallet row.score features
      (py.readTime now row.occurredAt).isoformat

/-- The first event whose hash does not match; `none` where the walk raises before it. -/
def firstMismatch : Option String → List Row → Option (Option String)
  | _, [] => some none
  | previous, row :: rows =>
    match py.payload now previous row with
    | none => none
    | some text =>
      if digest text ≠ row.chainHash then some (some row.eventId)
      else firstMismatch (some row.chainHash) rows

/-- The result of `verify`, if it returns. -/
def verify (s : Store) (wallet : String) : Option ChainVerificationResult :=
  let rows := replayedRows s wallet
  if rows.length = 0 then some ⟨wallet, .noEvents, 0, none⟩
  else
    (py.firstMismatch now none rows).map fun
      | some eventId => ⟨wallet, .tampered, rows.length, some eventId⟩
      | none => ⟨wallet, .valid, rows.length, none⟩

def verifiedTexts : Option String → List Row → List (List Char)
  | _, [] => []
  | previous, row :: rows =>
    (py.payload now previous row).toList ++ verifiedTexts (some row.chainHash) rows

end Readers

theorem plain_roundTrips (features : List (String × Json)) : plainReaders.RoundTrips features :=
  loads_render Separators.blank_compact _

section Walk

variable {py : Readers} {now : DateTime} {previous : Option String} {rows front back : List Row}
  {row : Row}

def lastHash (previous : Option String) (rows : List Row) : Option String :=
  lastTag (fun row => some row.chainHash) previous rows

/-- A walk without a mismatch matches each row after the one before it. -/
theorem firstMismatch_append :
    py.firstMismatch now previous (front ++ back) = some none ↔
      py.firstMismatch now previous front = some none ∧
        py.firstMismatch now (lastHash previous front) back = some none := by
  induction front generalizing previous with
  | nil => simp [Readers.firstMismatch, lastHash]
  | cons row front ih =>
    rw [List.cons_append, Readers.firstMismatch, Readers.firstMismatch, lastHash, lastTag_cons]
    cases py.payload now previous row with
    | none => simp
    | some text =>
      simp only
      by_cases hmatch : digest text = row.chainHash
      · rw [if_neg (not_not_intro hmatch), if_neg (not_not_intro hmatch)]
        exact ih
      · simp [hmatch]

theorem firstMismatch_cons :
    py.firstMismatch now previous (row :: back) = some none ↔
      (∃ text, py.payload now previous row = some text ∧ digest text = row.chainHash) ∧
        py.firstMismatch now (some row.chainHash) back = some none := by
  rw [Readers.firstMismatch]
  cases py.payload now previous row with
  | none => simp
  | some text =>
    simp only
    by_cases hmatch : digest text = row.chainHash
    · rw [if_neg (not_not_intro hmatch)]
      simp [hmatch]
    · simp [hmatch]

theorem payload_mem_verifiedTexts {text : List Char}
    (h : py.payload now (lastHash previous front) row = some text) :
    text ∈ py.verifiedTexts now previous (front ++ row :: back) := by
  induction front generalizing previous with
  | nil =>
    rw [lastHash, lastTag_nil] at h
    rw [List.nil_append, Readers.verifiedTexts, h]
    exact List.mem_append_left _ (List.mem_singleton.mpr rfl)
  | cons head front ih =>
    rw [lastHash, lastTag_cons] at h
    rw [List.cons_append, Readers.verifiedTexts]
    exact List.mem_append_right _ (ih h)

theorem firstMismatch_isSome (h : ∀ row ∈ rows, (py.features row.featureSnapshot).isSome) :
    (py.firstMismatch now previous rows).isSome := by
  induction rows generalizing previous with
  | nil => rfl
  | cons row rows ih =>
    obtain ⟨features, hfeatures⟩ := Option.isSome_iff_exists.mp (h row List.mem_cons_self)
    rw [Readers.firstMismatch, Readers.payload, hfeatures, Option.map_some]
    simp only
    split_ifs with hmatch
    · rfl
    · exact ih fun r hr => h r (List.mem_cons_of_mem _ hr)

theorem verify_eq {s : Store} {wallet : String} (h : replayedRows s wallet ≠ []) :
    py.verify now s wallet = (py.firstMismatch now none (replayedRows s wallet)).map fun
      | some eventId => ⟨wallet, .tampered, (replayedRows s wallet).length, some eventId⟩
      | none => ⟨wallet, .valid, (replayedRows s wallet).length, none⟩ := by
  have hlength : (replayedRows s wallet).length ≠ 0 := fun hzero =>
    h (List.length_eq_zero_iff.mp hzero)
  rw [Readers.verify]
  exact if_neg hlength

theorem tampered_of_mismatch {s : Store} {wallet : String} (hrows : replayedRows s wallet ≠ [])
    (h : py.firstMismatch now none (replayedRows s wallet) ≠ some none) :
    ∀ result ∈ py.verify now s wallet, result.status = .tampered := by
  intro result hresult
  rw [verify_eq hrows, Option.mem_def, Option.map_eq_some_iff] at hresult
  obtain ⟨mismatch, hmismatch, rfl⟩ := hresult
  cases mismatch with
  | none => exact absurd hmismatch h
  | some eventId => rfl

end Walk

def canonical (features : List (String × Json)) : Json :=
  sortKeys (.object (.ofList (sortItems features)))

structure SameReading (py : Readers) (now : DateTime) (altered row : Row) : Prop where
  eventId : altered.eventId = row.eventId
  wallet : altered.wallet = row.wallet
  score : altered.score = row.score
  features : (py.features altered.featureSnapshot).map canonical =
    (py.features row.featureSnapshot).map canonical
  occurredAt : (py.readTime now altered.occurredAt).isoformat = row.occurredAt

theorem chainPayload_inj {previous previous' : Option String}
    {eventId eventId' wallet wallet' : String} {score score' : ℤ}
    {features features' : List (String × Json)} {occurredAt occurredAt' : String}
    (h : chainPayload previous eventId wallet score features occurredAt =
      chainPayload previous' eventId' wallet' score' features' occurredAt') :
    eventId = eventId' ∧ wallet = wallet' ∧ score = score' ∧
      canonical features = canonical features' ∧ occurredAt = occurredAt' := by
  rw [chainPayload_members, chainPayload_members] at h
  have hmembers := Members.ofList_inj (Json.object.inj (Json.render_inj h))
  simp only [List.cons.injEq, Prod.mk.injEq, Json.string.injEq, Json.number.injEq, true_and,
    and_true] at hmembers
  obtain ⟨heventId, hfeatures, hoccurredAt, -, hscore, hwallet⟩ := hmembers
  exact ⟨heventId, hwallet, NumberText.ofInt_inj hscore, hfeatures, hoccurredAt⟩

section Honest

variable {py : Readers} {now : DateTime} {maxKeys : ℕ} {calls : List (DateTime × ScoringEvent)}
  {s : Store} {row : Row}

theorem exists_event_of_mem {events : List ScoringEvent} {rows : List Row}
    (h : Arrivals maxKeys events rows) (hrow : row ∈ rows) :
    ∃ previous, ∃ e ∈ events, row = arrivingRow maxKeys previous e := by
  induction h with
  | nil => exact absurd hrow List.not_mem_nil
  | @concat events rows e _ ih =>
    rcases List.mem_append.mp hrow with hold | hnew
    · obtain ⟨previous, e', he', heq⟩ := ih hold
      exact ⟨previous, e', List.mem_append_left _ he', heq⟩
    · exact ⟨latestHash rows, e, List.mem_append_right _ (List.mem_singleton.mpr rfl),
        List.mem_singleton.mp hnew⟩

theorem features_of_mem (h : appendAll maxKeys calls = .ok s)
    (hreads : ∀ call ∈ calls, py.RoundTrips (truncate maxKeys call.2).featureSnapshot)
    (hrow : row ∈ s.rows) :
    py.features row.featureSnapshot = some (readSnapshot row.featureSnapshot) := by
  have hwallet : row ∈ walletRows s.rows row.wallet :=
    List.mem_filter.mpr ⟨hrow, decide_eq_true rfl⟩
  obtain ⟨previous, e, he, heq⟩ := exists_event_of_mem (arrivals_of_appendAll h row.wallet) hwallet
  obtain ⟨call, hcall, rfl⟩ := List.mem_map.mp (List.mem_filter.mp he).1
  have hsnapshot :
      row.featureSnapshot = dumpsSnapshot (truncate maxKeys call.2).featureSnapshot := by
    rw [heq]
    rfl
  rw [hsnapshot, readSnapshot_dumps, Readers.features, hreads call hcall]
  exact congrArg some (Members.toList_ofList _)

/-- On the tables of the store itself `verify` is the verifier of its rows as they are read. -/
theorem verify_plain (h : appendAll maxKeys calls = .ok s) (wallet : String) :
    plainReaders.verify now s wallet = some (ScoringEvents.verify now s wallet) := by
  have hreads : ∀ call ∈ calls,
      plainReaders.RoundTrips (truncate maxKeys call.2).featureSnapshot :=
    fun call _ => plain_roundTrips _
  have hwalk : ∀ (rows : List Row) (previous : Option String), (∀ row ∈ rows, row ∈ s.rows) →
      plainReaders.firstMismatch now previous rows =
        some (firstTampered previous (rows.map (fromRow now))) := by
    intro rows
    induction rows with
    | nil => exact fun _ _ => rfl
    | cons row rows ih =>
      intro previous hrows
      have hfeatures := features_of_mem h hreads (hrows row List.mem_cons_self)
      rw [Readers.firstMismatch, Readers.payload, hfeatures, List.map_cons, firstTampered,
        ih _ fun r hr => hrows r (List.mem_cons_of_mem _ hr)]
      by_cases hmatch : digest (chainPayload previous row.eventId row.wallet row.score
          (readSnapshot row.featureSnapshot) (readTime now row.occurredAt).isoformat) ≠
          row.chainHash
      · exact (if_pos hmatch).trans (congrArg some (if_pos hmatch).symm)
      · exact (if_neg hmatch).trans (congrArg some (if_neg hmatch).symm)
  have hreplayed : ∀ row ∈ replayedRows s wallet, row ∈ s.rows := fun row hrow =>
    mem_rows_of_mem_walletRows (mem_walletRows_of_mem_replayedRows hrow)
  rw [Readers.verify, ScoringEvents.verify, replay_eq, List.length_map,
    hwalk _ none hreplayed]
  by_cases hlength : (replayedRows s wallet).length = 0
  · rw [if_pos hlength, if_pos hlength]
  · rw [if_neg hlength, if_neg hlength]
    cases firstTampered none ((replayedRows s wallet).map (fromRow now)) with
    | none => rfl
    | some eventId => rfl

end Honest

structure Alteration (s s' : Store) where
  front : List Row
  row : Row
  altered : Row
  back : List Row
  rows_eq : s.rows = front ++ row :: back
  altered_eq : s'.rows = front ++ altered :: back

section Altered

variable {py : Readers} {now : DateTime} {maxKeys : ℕ} {calls : List (DateTime × ScoringEvent)}
  {s s' : Store} (a : Alteration s s')

namespace Alteration

/-- What was hashed when the events of the altered row's wallet were appended, and what the verifier
hashes for the wallet that the altered row names. -/
def hashedTexts (py : Readers) (now : DateTime) : List (List Char) :=
  (walletRows s.rows a.row.wallet).map (fun row =>
      row.payload (appendedAfter s a.row.wallet row) row.occurredAt) ++
    py.verifiedTexts now none (replayedRows s' a.altered.wallet)

def OnlyHash : Prop :=
  a.altered.chainHash ≠ a.row.chainHash ∧
    a.altered = { a.row with chainHash := a.altered.chainHash }

/-- What is read of the altered row is not what was hashed, or the hash alone was altered, in a
chain that is valid without that. -/
def Detectable (py : Readers) (now : DateTime) : Prop :=
  (a.altered.chainHash = a.row.chainHash ∧ ¬ SameReading py now a.altered a.row) ∨
    (a.OnlyHash ∧ ∃ result ∈ py.verify now s a.row.wallet, result.status = .valid)

def replace (row : Row) : Row := if row = a.row then a.altered else row

theorem row_mem : a.row ∈ s.rows := by
  rw [a.rows_eq]
  exact List.mem_append_right _ List.mem_cons_self

theorem mem_rows {row : Row} (h : row ∈ s'.rows) (hne : row ≠ a.altered) : row ∈ s.rows := by
  rw [a.altered_eq] at h
  rw [a.rows_eq]
  rcases List.mem_append.mp h with hfront | hback
  · exact List.mem_append_left _ hfront
  · exact List.mem_append_right _
      (List.mem_cons_of_mem _ ((List.mem_cons.mp hback).resolve_left hne))

theorem rows_nodup (s : Store) : s.rows.Nodup :=
  s.distinct.imp fun hno heq => hno (.inl (congrArg Row.eventId heq))

theorem rows_map : s'.rows = s.rows.map a.replace := by
  have hnodup := rows_nodup s
  rw [a.rows_eq] at hnodup ⊢
  obtain ⟨-, hback, happart⟩ := List.nodup_append.mp hnodup
  have hfront : a.front.map a.replace = a.front := by
    refine (List.map_congr_left fun row hrow => ?_).trans (List.map_id _)
    exact if_neg (happart row hrow a.row List.mem_cons_self)
  have hrest : a.back.map a.replace = a.back := by
    refine (List.map_congr_left fun row hrow => if_neg ?_).trans (List.map_id _)
    rintro rfl
    exact (List.nodup_cons.mp hback).1 hrow
  rw [a.altered_eq, List.map_append, List.map_cons, hfront, hrest, replace, if_pos rfl]

theorem replayedRows_map (h : a.OnlyHash) (wallet : String) :
    replayedRows s' wallet = (replayedRows s wallet).map a.replace := by
  have hkeeps : ∀ row, (a.replace row).wallet = row.wallet ∧
      (a.replace row).occurredAt = row.occurredAt := by
    intro row
    rw [replace]
    by_cases hrow : row = a.row
    · rw [if_pos hrow, h.2, hrow]
      exact ⟨rfl, rfl⟩
    · rw [if_neg hrow]
      exact ⟨rfl, rfl⟩
  have hwallet : walletRows s'.rows wallet = (walletRows s.rows wallet).map a.replace := by
    rw [walletRows, a.rows_map, List.filter_map, walletRows]
    congr 1
    apply List.filter_congr
    intro row _
    simp [(hkeeps row).1]
  have hsorted : inKeyOrder Row.occurredAt ((walletRows s.rows wallet).map a.replace) =
      (inKeyOrder Row.occurredAt (walletRows s.rows wallet)).map a.replace := by
    symm
    apply List.map_insertionSort
    intro row _ row' _
    rw [KeyLe, KeyLe, (hkeeps row).2, (hkeeps row').2]
  rw [replayedRows, hwallet, hsorted, ← List.map_take, replayedRows]

/-- The verifier meets the row whose hash alone was altered where it met it before. -/
theorem split_of_onlyHash (h : a.OnlyHash) (hreplayed : a.altered ∈ replayedRows s' a.row.wallet) :
    ∃ front back, replayedRows s a.row.wallet = front ++ a.row :: back ∧
      replayedRows s' a.row.wallet = front ++ a.altered :: back.map a.replace := by
  have hsub : ∀ row ∈ replayedRows s a.row.wallet, row ∈ s.rows := fun row hrow =>
    mem_rows_of_mem_walletRows (mem_walletRows_of_mem_replayedRows hrow)
  have hrow : a.row ∈ replayedRows s a.row.wallet := by
    rw [a.replayedRows_map h] at hreplayed
    obtain ⟨row, hrow, heq⟩ := List.mem_map.mp hreplayed
    by_cases hself : row = a.row
    · exact hself ▸ hrow
    · -- The altered row has the id of the other, and would stand beside it.
      rw [replace, if_neg hself] at heq
      subst heq
      have hid : a.altered.eventId = a.row.eventId := by rw [h.2]
      exact absurd (UniqueTable.eq_of_clash (hsub _ hrow) a.row_mem (.inl hid)) hself
  obtain ⟨front, back, hsplit⟩ := List.append_of_mem hrow
  refine ⟨front, back, hsplit, ?_⟩
  have hnodup : (replayedRows s a.row.wallet).Nodup := by
    apply List.Nodup.sublist (List.take_sublist _ _)
    apply (inKeyOrder_perm _).nodup_iff.mpr
    exact (rows_nodup s).sublist List.filter_sublist
  rw [hsplit] at hnodup
  have hfront : front.map a.replace = front := by
    refine (List.map_congr_left fun row hrow => ?_).trans (List.map_id _)
    exact if_neg ((List.nodup_append.mp hnodup).2.2 row hrow a.row List.mem_cons_self)
  rw [a.replayedRows_map h, hsplit, List.map_append, List.map_cons, hfront, replace, if_pos rfl]

/-- An altered reading does not match the hash that was stored for the honest one. -/
theorem mismatch_of_reading (h : appendAll maxKeys calls = .ok s)
    (hreads : ∀ call ∈ calls, py.RoundTrips (truncate maxKeys call.2).featureSnapshot)
    (hfree : CollisionFree (a.hashedTexts py now))
    (hreplayed : a.altered ∈ replayedRows s' a.altered.wallet)
    (hsame : a.altered.chainHash = a.row.chainHash)
    (hreading : ¬ SameReading py now a.altered a.row) :
    py.firstMismatch now none (replayedRows s' a.altered.wallet) ≠ some none := by
  intro hvalid
  apply hreading
  obtain ⟨front, back, hsplit⟩ := List.append_of_mem hreplayed
  rw [hsplit] at hvalid
  obtain ⟨-, hmatch⟩ := firstMismatch_append.mp hvalid
  obtain ⟨⟨text, htext, hdigest⟩, -⟩ := firstMismatch_cons.mp hmatch
  have hwallet : a.row ∈ walletRows s.rows a.row.wallet :=
    List.mem_filter.mpr ⟨a.row_mem, decide_eq_true rfl⟩
  have hverified : text ∈ a.hashedTexts py now := by
    apply List.mem_append_right
    rw [hsplit]
    exact payload_mem_verifiedTexts htext
  have happended : a.row.payload (appendedAfter s a.row.wallet a.row) a.row.occurredAt ∈
      a.hashedTexts py now :=
    List.mem_append_left _ (List.mem_map.mpr ⟨a.row, hwallet, rfl⟩)
  have heq := hfree text hverified _ happended
    (hdigest.trans (hsame.trans (chainHash_eq_digest h hwallet)))
  obtain ⟨features, hfeatures, rfl⟩ := Option.map_eq_some_iff.mp htext
  obtain ⟨heventId, hwallet', hscore, hcanonical, hoccurredAt⟩ := chainPayload_inj heq
  refine ⟨heventId, hwallet', hscore, ?_, hoccurredAt⟩
  rw [hfeatures, features_of_mem h hreads a.row_mem, Option.map_some, Option.map_some, hcanonical]

theorem mismatch_of_hash (h : a.OnlyHash) (hreplayed : a.altered ∈ replayedRows s' a.row.wallet)
    (hvalid : py.firstMismatch now none (replayedRows s a.row.wallet) = some none) :
    py.firstMismatch now none (replayedRows s' a.row.wallet) ≠ some none := by
  obtain ⟨front, back, hsplit, hsplit'⟩ := a.split_of_onlyHash h hreplayed
  rw [hsplit] at hvalid
  rw [hsplit']
  intro hvalid'
  obtain ⟨-, hmatch⟩ := firstMismatch_append.mp hvalid
  obtain ⟨-, hmatch'⟩ := firstMismatch_append.mp hvalid'
  obtain ⟨⟨text, htext, hdigest⟩, -⟩ := firstMismatch_cons.mp hmatch
  obtain ⟨⟨text', htext', hdigest'⟩, -⟩ := firstMismatch_cons.mp hmatch'
  have hfields : py.payload now (lastHash none front) a.altered =
      py.payload now (lastHash none front) a.row := by
    rw [h.2]
    rfl
  obtain rfl : text' = text := Option.some.inj (htext'.symm.trans (hfields.trans htext))
  exact h.1 (hdigest'.symm.trans hdigest)

end Alteration

/-- On an honest store with one event altered, where the verifier replays the altered row for the
wallet that it names: if what is read of it is not what was hashed, or its hash alone was altered in
a chain that is valid without that, the wallet is reported tampered, unless the altered snapshot is
JSON without items, on which the verifier may raise. -/
theorem altered_event_reported (h : appendAll maxKeys calls = .ok s)
    (hreads : ∀ call ∈ calls, py.RoundTrips (truncate maxKeys call.2).featureSnapshot)
    (hreplayed : a.altered ∈ replayedRows s' a.altered.wallet)
    (hfree : CollisionFree (a.hashedTexts py now)) (hdetectable : a.Detectable py now) :
    (∀ result ∈ py.verify now s' a.altered.wallet, result.status = .tampered) ∧
      ((py.features a.altered.featureSnapshot).isSome →
        (py.verify now s' a.altered.wallet).isSome) := by
  have hrows : replayedRows s' a.altered.wallet ≠ [] := List.ne_nil_of_mem hreplayed
  constructor
  · apply tampered_of_mismatch hrows
    rcases hdetectable with ⟨hsame, hreading⟩ | ⟨honly, result, hresult, hstatus⟩
    · exact a.mismatch_of_reading h hreads hfree hreplayed hsame hreading
    · have hwallet : a.altered.wallet = a.row.wallet := by rw [honly.2]
      rw [hwallet] at hreplayed ⊢
      apply a.mismatch_of_hash honly hreplayed
      by_contra hmismatch
      obtain ⟨front, back, hsplit, -⟩ := a.split_of_onlyHash honly hreplayed
      have hhonest : replayedRows s a.row.wallet ≠ [] := by simp [hsplit]
      rw [tampered_of_mismatch hhonest hmismatch result hresult] at hstatus
      cases hstatus
  · intro hsome
    rw [verify_eq hrows, Option.isSome_map]
    apply firstMismatch_isSome
    intro row hrow
    by_cases hself : row = a.altered
    · rwa [hself]
    · have hmem := a.mem_rows
        (mem_rows_of_mem_walletRows (mem_walletRows_of_mem_replayedRows hrow)) hself
      rw [features_of_mem h hreads hmem]
      rfl

end Altered

instance (texts : List (List Char)) : Decidable (CollisionFree texts) :=
  inferInstanceAs (Decidable (∀ t ∈ texts, ∀ t' ∈ texts, digest t = digest t' → t = t'))

def tableOf (row : Row) : Store := ⟨[row], List.pairwise_singleton _ _⟩

def firstRow (occurredAt : DateTime) : Row := arrivingRow 50 none (scoring "1" occurredAt).2

def alteration (row altered : Row) : Alteration (tableOf row) (tableOf altered) where
  front := []
  row := row
  altered := altered
  back := []
  rows_eq := rfl
  altered_eq := rfl

theorem walletRows_tableOf (row : Row) : walletRows (tableOf row).rows row.wallet = [row] := by
  simp [walletRows, tableOf]

theorem replayedRows_tableOf (row : Row) : replayedRows (tableOf row) row.wallet = [row] := by
  rw [replayedRows, walletRows_tableOf]
  rfl

theorem appendedAfter_tableOf (row : Row) : appendedAfter (tableOf row) row.wallet row = none := by
  rw [appendedAfter, walletRows_tableOf]
  simp [predecessor, latest, inKeyOrder]

theorem verify_tableOf {py : Readers} {now : DateTime} {row : Row} {text : List Char}
    (htext : py.payload now none row = some text) (hhash : digest text = row.chainHash) :
    py.verify now (tableOf row) row.wallet = some ⟨row.wallet, .valid, 1, none⟩ := by
  have hmatch : py.firstMismatch now none [row] = some none :=
    firstMismatch_cons.mpr ⟨⟨text, htext, hhash⟩, rfl⟩
  rw [verify_eq (by simp [replayedRows_tableOf]), replayedRows_tableOf, hmatch]
  rfl

theorem eq_tableOf {s : Store} {row : Row} (h : s.rows = [row]) : s = tableOf row := by
  obtain ⟨rows, distinct⟩ := s
  obtain rfl : rows = [row] := h
  rfl

theorem appendAll_nine : appendAll 50 [scoring "1" nine] = .ok (tableOf (firstRow nine)) := by
  obtain ⟨s, hs, hrows⟩ := appendAll_eq_ok
    (show (appendAll 50 [scoring "1" nine]).toOption.any
      (fun s => decide (s.rows = [firstRow nine])) = true by decide +kernel)
  rw [hs, eq_tableOf (of_decide_eq_true hrows)]

/-- A raised score. -/
theorem altered_score_reported :
    (∀ result ∈ plainReaders.verify ten (tableOf { firstRow nine with score := 81 }) "GA",
      result.status = .tampered) ∧
    ((plainReaders.features "{}").isSome →
      (plainReaders.verify ten (tableOf { firstRow nine with score := 81 }) "GA").isSome) := by
  apply altered_event_reported (alteration (firstRow nine) { firstRow nine with score := 81 })
    appendAll_nine (fun call _ => plain_roundTrips _)
  · decide +kernel
  · decide +kernel
  · exact .inl ⟨rfl, fun hreading => absurd hreading.score (by decide)⟩

def naiveNine : DateTime := newYear 9 none (by decide)

/-- The columns that are not hashed, altered, and a snapshot respelled. -/
def unreadAlterations : List Row :=
  [{ firstRow nine with modelVersion := "v2" },
    { firstRow nine with triggeredBy := "feedback_boost" },
    { firstRow nine with actorId := some "key" },
    { firstRow nine with namespaceId := "other" },
    { firstRow nine with previousScore := some 10 },
    { firstRow nine with featureSnapshot := "{ }" }]

theorem collisionFree_of_eq {texts : List (List Char)} (h : ∀ t ∈ texts, ∀ t' ∈ texts, t = t') :
    CollisionFree texts :=
  fun t ht t' ht' _ => h t ht t' ht'

/-- What is not read may be altered, without a collision; a moved event leaves its wallet without
one; and the hash of a naive time, which the verifier reads as UTC, may be replaced by the one that
it expects. -/
theorem alterations_unnoticed :
    appendAll 50 [scoring "1" nine] = .ok (tableOf (firstRow nine)) ∧
    (∀ altered ∈ unreadAlterations, altered ≠ firstRow nine ∧
      CollisionFree ((alteration (firstRow nine) altered).hashedTexts plainReaders ten) ∧
      plainReaders.verify ten (tableOf altered) "GA" = some ⟨"GA", .valid, 1, none⟩) ∧
    plainReaders.verify ten (tableOf { firstRow nine with wallet := "GB" }) "GA" =
      some ⟨"GA", .noEvents, 0, none⟩ ∧
    ((appendAll 50 [scoring "1" naiveNine]).toOption.any fun s =>
      decide (s.rows = [firstRow naiveNine])) ∧
    plainReaders.verify ten (tableOf { firstRow naiveNine with
      chainHash := computeChainHash none "1" "GA" 80 [] nine }) "GA" =
        some ⟨"GA", .valid, 1, none⟩ := by
  have hread : ∀ altered ∈ unreadAlterations, altered.wallet = "GA" ∧
      plainReaders.payload ten none altered =
        some ((firstRow nine).payload none (firstRow nine).occurredAt) := by
    decide +kernel
  have hchain : ∀ altered ∈ unreadAlterations,
      altered.chainHash = (firstRow nine).chainHash := by
    simp [unreadAlterations]
  have hdistinct : ∀ altered ∈ unreadAlterations, altered ≠ firstRow nine := by decide +kernel
  refine ⟨appendAll_nine, fun altered haltered => ?_, by decide +kernel, by decide +kernel,
    by decide +kernel⟩
  obtain ⟨hwallet, htext⟩ := hread altered haltered
  refine ⟨hdistinct altered haltered, collisionFree_of_eq ?_, ?_⟩
  · have htexts : (alteration (firstRow nine) altered).hashedTexts plainReaders ten =
        [(firstRow nine).payload none (firstRow nine).occurredAt,
          (firstRow nine).payload none (firstRow nine).occurredAt] := by
      simp [Alteration.hashedTexts, alteration, walletRows_tableOf, replayedRows_tableOf,
        appendedAfter_tableOf, Readers.verifiedTexts, htext]
    simp [htexts]
  · rw [← hwallet]
    apply verify_tableOf htext
    rw [hchain altered haltered]
    exact (arrivingRow_hash 50 none (scoring "1" nine).2).symm

end ScoringTampering
