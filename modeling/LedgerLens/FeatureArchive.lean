import LedgerLens.LabelledRuns
import Mathlib.Data.List.Nodup
import Mathlib.Data.String.Basic
import Mathlib.Logic.Function.Basic
import Mathlib.Order.Nat

/-!
# The feature archive

`detection/feature_store.py`: the snapshots of features in SQLite, the archiver that moves old ones
to Parquet, and the query that merges the two. `record_scored_features` of
`detection/drift_monitor.py` adds the snapshots, under a cap on their number.
-/
namespace FeatureArchive

open LabelledRuns

/-- Microseconds, in UTC. -/
abbrev Time := ℤ

structure Snapshot (Stamp V : Type) where
  wallet : String
  assetPair : String
  featureName : String
  featureValue : V
  recordedAt : Stamp
  deriving DecidableEq

section Keys

variable {Stamp Stamp' V : Type}

def Snapshot.restamp (r : Snapshot Stamp V) (stamp : Stamp') : Snapshot Stamp' V :=
  ⟨r.wallet, r.assetPair, r.featureName, r.featureValue, stamp⟩

def Snapshot.identity (r : Snapshot Stamp V) : String × String × String × Stamp :=
  (r.wallet, r.assetPair, r.featureName, r.recordedAt)

def Snapshot.dedupKey (r : Snapshot Stamp V) : String × String × Stamp :=
  (r.wallet, r.featureName, r.recordedAt)

/-- `drop_duplicates` keeps the first row of every key, here of those not seen before. -/
def dropDuplicates [DecidableEq Stamp] (seen : List (String × String × Stamp)) :
    List (Snapshot Stamp V) → List (Snapshot Stamp V)
  | [] => []
  | r :: rows =>
    if r.dedupKey ∈ seen then dropDuplicates seen rows
    else r :: dropDuplicates (r.dedupKey :: seen) rows

end Keys

/-- What pandas and PyArrow do. A column of texts is parsed as a whole, and a text that the format
of the column does not fit is coerced to no time at all. -/
structure Pandas where
  timeOf : String → Time
  toDatetime : List String → String → Option Time
  sound : ∀ column text time, toDatetime column text = some time → time = timeOf text
  /-- Parquet timestamps without a zone can be filtered by a time that has one. -/
  comparesZones : Bool

/-- A `datetime`: its text, and the time. -/
structure Bound where
  isoformat : String
  time : Time
  deriving DecidableEq

structure Query where
  wallet : Option String
  featureName : Option String
  since : Option Bound
  stop : Option Bound
  deriving DecidableEq

def MAX_SNAPSHOT_ROWS : ℕ := 500000

def MIN_SNAPSHOT_ROWS_AFTER_PRUNE : ℕ := 450000

/-- Where a run of the archiver stands: the cutoff, and the rows that it read. -/
inductive Phase (V : Type) where
  | idle
  | selected (cutoff : String) (rows : List (Snapshot String V))
  | written (cutoff : String) (rows : List (Snapshot String V))

structure Store (V Archiver : Type) where
  hot : List (Snapshot String V)
  cold : List (Snapshot Time V)
  phase : Archiver → Phase V
  recorded : List (Snapshot String V)

def Store.stored {V : Type} (Archiver : Type) (rows : List (Snapshot String V)) :
    Store V Archiver :=
  ⟨rows, [], fun _ => .idle, rows⟩

/-- A run of the archiver goes on with its next step, or stops. -/
inductive Label (V Archiver : Type) where
  | record (batch : List (Snapshot String V))
  | select (a : Archiver) (cutoff : String)
  | write (a : Archiver)
  | delete (a : Archiver)
  | stop (a : Archiver)

section Steps

variable {V : Type}

/-- Beyond the cap only the rows of the latest timestamps are kept. -/
def prune (rows : List (Snapshot String V)) : List (Snapshot String V) :=
  if MAX_SNAPSHOT_ROWS < rows.length then
    let newest := ((rows.map fun r => r.recordedAt).mergeSort fun a b => decide (b ≤ a)).take
      MIN_SNAPSHOT_ROWS_AFTER_PRUNE
    rows.filter fun r => r.recordedAt ∈ newest
  else rows

variable (pandas : Pandas)

/-- `to_datetime` of the column that a list of rows has, for one of them. -/
def parsed (rows : List (Snapshot String V)) (r : Snapshot String V) : Option Time :=
  pandas.toDatetime (rows.map fun r => r.recordedAt) r.recordedAt

/-- The rows written, without those that have no time. -/
def parquetRows (rows : List (Snapshot String V)) : List (Snapshot Time V) :=
  rows.filterMap fun r => (parsed pandas rows r).map r.restamp

variable {Archiver : Type} [DecidableEq Archiver]

def next (s : Store V Archiver) : Label V Archiver → Option (Store V Archiver)
  | .record batch => some { s with
      hot := prune (s.hot ++ batch)
      recorded := s.recorded ++ batch }
  | .select a cutoff =>
    match s.phase a with
    | .idle =>
      let rows := s.hot.filter fun r => r.recordedAt < cutoff
      some { s with
        phase := Function.update s.phase a (if rows = [] then .idle else .selected cutoff rows) }
    | _ => none
  | .write a =>
    match s.phase a with
    | .selected cutoff rows => some { s with
        cold := s.cold ++ parquetRows pandas rows
        phase := Function.update s.phase a (.written cutoff rows) }
    | _ => none
  | .delete a =>
    match s.phase a with
    | .written cutoff _ => some { s with
        hot := s.hot.filter fun r => ¬ r.recordedAt < cutoff
        phase := Function.update s.phase a .idle }
    | _ => none
  | .stop a => some { s with phase := Function.update s.phase a .idle }

end Steps

section Querying

variable {V Archiver : Type} (pandas : Pandas)

/-- An empty wallet or feature name is no filter. -/
def Query.Names {Stamp : Type} (q : Query) (r : Snapshot Stamp V) : Prop :=
  (∀ w ∈ q.wallet, w ≠ "" → r.wallet = w) ∧ ∀ f ∈ q.featureName, f ≠ "" → r.featureName = f

instance {Stamp : Type} (q : Query) (r : Snapshot Stamp V) : Decidable (q.Names r) :=
  inferInstanceAs (Decidable ((∀ w ∈ q.wallet, _) ∧ ∀ f ∈ q.featureName, _))

/-- SQLite compares the texts of the timestamps. -/
def hotRows (hot : List (Snapshot String V)) (q : Query) : List (Snapshot String V) :=
  hot.filter fun r => q.Names r ∧ (∀ b ∈ q.since, b.isoformat ≤ r.recordedAt) ∧
    ∀ b ∈ q.stop, r.recordedAt ≤ b.isoformat

def queryHot (hot : List (Snapshot String V)) (q : Query) : List (Snapshot (Option Time) V) :=
  (hotRows hot q).map fun r => r.restamp (parsed pandas (hotRows hot q) r)

/-- A filter that PyArrow refuses raises, which leaves the result empty. -/
def queryCold (cold : List (Snapshot Time V)) (q : Query) : List (Snapshot (Option Time) V) :=
  if (q.since ≠ none ∨ q.stop ≠ none) ∧ pandas.comparesZones = false then []
  else
    let found := cold.filter fun r => q.Names r ∧ (∀ b ∈ q.since, b.time ≤ r.recordedAt) ∧
      ∀ b ∈ q.stop, r.recordedAt ≤ b.time
    found.map fun r => r.restamp (some r.recordedAt)

def query (s : Store V Archiver) (q : Query) : List (Snapshot (Option Time) V) :=
  dropDuplicates [] (queryHot pandas s.hot q ++ queryCold pandas s.cold q)

def Query.Matches (q : Query) (r : Snapshot String V) : Prop :=
  q.Names r ∧ (∀ b ∈ q.since, b.time ≤ pandas.timeOf r.recordedAt) ∧
    ∀ b ∈ q.stop, pandas.timeOf r.recordedAt ≤ b.time

def timed (r : Snapshot String V) : Snapshot (Option Time) V :=
  r.restamp (some (pandas.timeOf r.recordedAt))

structure Exact (s : Store V Archiver) (q : Query) : Prop where
  once : ((query pandas s q).map Snapshot.identity).Nodup
  all : ∀ i, i ∈ (query pandas s q).map Snapshot.identity ↔
    ∃ r ∈ s.recorded, q.Matches pandas r ∧ (timed pandas r).identity = i

def OnePair (rows : List (Snapshot String V)) : Prop :=
  ∀ r ∈ rows, ∀ r' ∈ rows, (timed pandas r).dedupKey = (timed pandas r').dedupKey →
    r.assetPair = r'.assetPair

/-- A deletion finds only rows that its run read and gave a time. -/
def ReadsAll (hot : List (Snapshot String V)) : Phase V → Prop
  | .written cutoff rows => ∀ r ∈ hot, r.recordedAt < cutoff →
      r ∈ rows ∧ parsed pandas rows r ≠ none
  | _ => True

/-- Records stay under the cap and keep to one pair, and deletions find only what was read. -/
def Careful (s : Store V Archiver) : Label V Archiver → Prop
  | .record batch => s.hot.length + batch.length ≤ MAX_SNAPSHOT_ROWS ∧
      OnePair pandas (s.recorded ++ batch)
  | .delete a => ReadsAll pandas s.hot (s.phase a)
  | _ => True

instance (rows : List (Snapshot String V)) : Decidable (OnePair pandas rows) :=
  inferInstanceAs (Decidable (∀ r ∈ rows, ∀ r' ∈ rows, _ → _))

instance [DecidableEq V] (hot : List (Snapshot String V)) :
    (phase : Phase V) → Decidable (ReadsAll pandas hot phase)
  | .written _ _ => inferInstanceAs (Decidable (∀ r ∈ hot, _ → _ ∧ _))
  | .idle | .selected _ _ => inferInstanceAs (Decidable True)

instance [DecidableEq V] (s : Store V Archiver) :
    (l : Label V Archiver) → Decidable (Careful pandas s l)
  | .record batch => inferInstanceAs (Decidable (_ ∧ OnePair pandas (s.recorded ++ batch)))
  | .delete a => inferInstanceAs (Decidable (ReadsAll pandas s.hot (s.phase a)))
  | .select _ _ | .write _ | .stop _ => inferInstanceAs (Decidable True)

/-- The rows of the hot tier have a time, the texts of the bounds order with theirs as the times do,
and PyArrow takes the filter where there is anything to filter. -/
structure Answerable (s : Store V Archiver) (q : Query) : Prop where
  readable : ∀ r ∈ hotRows s.hot q, parsed pandas (hotRows s.hot q) r ≠ none
  since : ∀ r ∈ s.hot, ∀ b ∈ q.since,
    b.isoformat ≤ r.recordedAt ↔ b.time ≤ pandas.timeOf r.recordedAt
  stop : ∀ r ∈ s.hot, ∀ b ∈ q.stop,
    r.recordedAt ≤ b.isoformat ↔ pandas.timeOf r.recordedAt ≤ b.time
  filters : (q.since = none ∧ q.stop = none) ∨ pandas.comparesZones = true ∨ s.cold = []

end Querying

section Duplicates

variable {Stamp V : Type} [DecidableEq Stamp] {seen : List (String × String × Stamp)}
  {rows : List (Snapshot Stamp V)} {r : Snapshot Stamp V}

theorem mem_dropDuplicates (h : r ∈ dropDuplicates seen rows) : r ∈ rows ∧ r.dedupKey ∉ seen := by
  induction rows generalizing seen with
  | nil => exact absurd h List.not_mem_nil
  | cons r' rows ih =>
    rw [dropDuplicates] at h
    split_ifs at h with hseen
    · exact ⟨List.mem_cons_of_mem _ (ih h).1, (ih h).2⟩
    · rcases List.mem_cons.mp h with rfl | h
      · exact ⟨List.mem_cons_self, hseen⟩
      · exact ⟨List.mem_cons_of_mem _ (ih h).1, fun hmem => (ih h).2 (List.mem_cons_of_mem _ hmem)⟩

theorem dropDuplicates_covers (h : r ∈ rows) (hseen : r.dedupKey ∉ seen) :
    ∃ r' ∈ dropDuplicates seen rows, r'.dedupKey = r.dedupKey := by
  induction rows generalizing seen with
  | nil => exact absurd h List.not_mem_nil
  | cons r' rows ih =>
    rw [dropDuplicates]
    by_cases hfirst : r'.dedupKey ∈ seen
    · rw [if_pos hfirst]
      rcases List.mem_cons.mp h with rfl | h
      · exact absurd hfirst hseen
      · exact ih h hseen
    · rw [if_neg hfirst]
      by_cases hsame : r.dedupKey = r'.dedupKey
      · exact ⟨r', List.mem_cons_self, hsame.symm⟩
      · rcases List.mem_cons.mp h with rfl | h
        · exact absurd rfl hsame
        · have hseen' : r.dedupKey ∉ r'.dedupKey :: seen :=
            fun hmem => (List.mem_cons.mp hmem).elim hsame hseen
          obtain ⟨r'', hr'', hkey⟩ := ih h hseen'
          exact ⟨r'', List.mem_cons_of_mem _ hr'', hkey⟩

theorem nodup_dropDuplicates (seen : List (String × String × Stamp))
    (rows : List (Snapshot Stamp V)) :
    ((dropDuplicates seen rows).map Snapshot.dedupKey).Nodup := by
  induction rows generalizing seen with
  | nil => exact List.nodup_nil
  | cons r rows ih =>
    rw [dropDuplicates]
    split_ifs
    · exact ih _
    · rw [List.map_cons, List.nodup_cons]
      refine ⟨?_, ih _⟩
      intro hmem
      obtain ⟨r', hr', hkey⟩ := List.mem_map.mp hmem
      exact (mem_dropDuplicates hr').2 (hkey ▸ List.mem_cons_self)

omit [DecidableEq Stamp] in
theorem dedupKey_of_identity {r' : Snapshot Stamp V} (h : r.identity = r'.identity) :
    r.dedupKey = r'.dedupKey := by
  simp only [Snapshot.identity, Prod.mk.injEq] at h
  simp only [Snapshot.dedupKey, Prod.mk.injEq]
  exact ⟨h.1, h.2.2.1, h.2.2.2⟩

omit [DecidableEq Stamp] in
theorem identity_of_dedupKey {r' : Snapshot Stamp V} (h : r.dedupKey = r'.dedupKey)
    (hpair : r.assetPair = r'.assetPair) : r.identity = r'.identity := by
  simp only [Snapshot.dedupKey, Prod.mk.injEq] at h
  simp only [Snapshot.identity, Prod.mk.injEq]
  exact ⟨h.1, hpair, h.2.1, h.2.2⟩

end Duplicates

section Runs

variable {pandas : Pandas} {V Archiver : Type}

def archived (c : Snapshot Time V) : Snapshot (Option Time) V := c.restamp (some c.recordedAt)

def Archived (pandas : Pandas) (cold : List (Snapshot Time V)) (r : Snapshot String V) : Prop :=
  ∃ c ∈ cold, (archived c).identity = (timed pandas r).identity

def Holds (pandas : Pandas) (s : Store V Archiver) : Phase V → Prop
  | .idle => True
  | .selected _ rows => ∀ r ∈ rows, r ∈ s.recorded
  | .written _ rows => ∀ r ∈ rows, parsed pandas rows r ≠ none → Archived pandas s.cold r

/-- Every snapshot recorded is in a tier, and nothing else is. -/
structure Kept (pandas : Pandas) (s : Store V Archiver) : Prop where
  onePair : OnePair pandas s.recorded
  hot : ∀ r ∈ s.hot, r ∈ s.recorded
  cold : ∀ c ∈ s.cold, ∃ r ∈ s.recorded, (timed pandas r).identity = (archived c).identity
  covered : ∀ r ∈ s.recorded, r ∈ s.hot ∨ Archived pandas s.cold r
  holds : ∀ a, Holds pandas s (s.phase a)

theorem Archived.append {cold cold' : List (Snapshot Time V)} {r : Snapshot String V}
    (h : Archived pandas cold r) : Archived pandas (cold ++ cold') r := by
  obtain ⟨c, hc, hidentity⟩ := h
  exact ⟨c, List.mem_append_left _ hc, hidentity⟩

theorem parsed_eq {rows : List (Snapshot String V)} {r : Snapshot String V}
    (h : parsed pandas rows r ≠ none) :
    parsed pandas rows r = some (pandas.timeOf r.recordedAt) := by
  obtain ⟨time, htime⟩ := Option.ne_none_iff_exists'.mp h
  rw [htime, pandas.sound _ _ _ htime]

theorem mem_parquetRows {rows : List (Snapshot String V)} {c : Snapshot Time V} :
    c ∈ parquetRows pandas rows ↔ ∃ r ∈ rows, parsed pandas rows r ≠ none ∧
      r.restamp (pandas.timeOf r.recordedAt) = c := by
  simp only [parquetRows, List.mem_filterMap]
  constructor
  · rintro ⟨r, hr, hc⟩
    obtain ⟨time, htime, rfl⟩ := Option.map_eq_some_iff.mp hc
    refine ⟨r, hr, ?_, by rw [pandas.sound _ _ _ htime]⟩
    rw [htime]
    exact Option.some_ne_none time
  · rintro ⟨r, hr, hparsed, rfl⟩
    exact ⟨r, hr, by rw [parsed_eq hparsed]; rfl⟩

theorem kept_stored (rows : List (Snapshot String V)) (h : OnePair pandas rows) :
    Kept pandas (.stored Archiver rows) where
  onePair := h
  hot _ hr := hr
  cold _ hc := absurd hc List.not_mem_nil
  covered _ hr := .inl hr
  holds _ := trivial

theorem holds_mono {s s' : Store V Archiver} {phase : Phase V} (h : Holds pandas s phase)
    (hrecorded : ∀ r ∈ s.recorded, r ∈ s'.recorded)
    (hcold : ∀ r, Archived pandas s.cold r → Archived pandas s'.cold r) :
    Holds pandas s' phase := by
  cases phase with
  | idle => trivial
  | selected cutoff rows => exact fun r hr => hrecorded r (h r hr)
  | written cutoff rows => exact fun r hr hparsed => hcold r (h r hr hparsed)

variable [DecidableEq Archiver]

theorem holds_update {s s' : Store V Archiver} {a : Archiver} {phase : Phase V}
    (h : ∀ a, Holds pandas s (s.phase a)) (hphase : Holds pandas s' phase)
    (hrecorded : ∀ r ∈ s.recorded, r ∈ s'.recorded)
    (hcold : ∀ r, Archived pandas s.cold r → Archived pandas s'.cold r) (a' : Archiver) :
    Holds pandas s' (Function.update s.phase a phase a') := by
  by_cases heq : a' = a
  · rw [heq, Function.update_self]
    exact hphase
  · rw [Function.update_of_ne heq]
    exact holds_mono (h a') hrecorded hcold

theorem Kept.next {s t : Store V Archiver} {l : Label V Archiver} (h : Kept pandas s)
    (hnext : next pandas s l = some t) (hcareful : Careful pandas s l) : Kept pandas t := by
  cases l with
  | record batch =>
    obtain rfl := Option.some.inj hnext
    obtain ⟨hcap, hpair⟩ := hcareful
    have hprune : prune (s.hot ++ batch) = s.hot ++ batch := by
      rw [prune, if_neg]
      rw [List.length_append]
      exact not_lt.mpr hcap
    have hmore : ∀ r ∈ s.recorded, r ∈ s.recorded ++ batch :=
      fun r hr => List.mem_append_left _ hr
    refine ⟨hpair, ?_, ?_, ?_, fun a => holds_mono (h.holds a) hmore fun _ hr => hr⟩
    · intro r hr
      rw [hprune] at hr
      exact (List.mem_append.mp hr).elim (fun hr => hmore r (h.hot r hr)) (List.mem_append_right _)
    · intro c hc
      obtain ⟨r, hr, hidentity⟩ := h.cold c hc
      exact ⟨r, hmore r hr, hidentity⟩
    · intro r hr
      rw [hprune]
      rcases List.mem_append.mp hr with hr | hr
      · exact (h.covered r hr).imp_left (List.mem_append_left _)
      · exact .inl (List.mem_append_right _ hr)
  | select a cutoff =>
    simp only [FeatureArchive.next] at hnext
    split at hnext
    · obtain rfl := Option.some.inj hnext
      refine ⟨h.onePair, h.hot, h.cold, h.covered, ?_⟩
      refine holds_update h.holds ?_ (fun _ hr => hr) fun _ hr => hr
      split_ifs
      · trivial
      · exact fun r hr => h.hot r (List.mem_of_mem_filter hr)
    · cases hnext
  | write a =>
    simp only [FeatureArchive.next] at hnext
    split at hnext
    · rename_i cutoff rows hphase
      obtain rfl := Option.some.inj hnext
      have hread := h.holds a
      rw [hphase] at hread
      have hcold : ∀ r, Archived pandas s.cold r →
          Archived pandas (s.cold ++ parquetRows pandas rows) r := fun _ hr => hr.append
      refine ⟨h.onePair, h.hot, ?_, fun r hr => (h.covered r hr).imp_right (hcold r), ?_⟩
      · intro c hc
        rcases List.mem_append.mp hc with hc | hc
        · exact h.cold c hc
        · obtain ⟨r, hr, -, rfl⟩ := mem_parquetRows.mp hc
          exact ⟨r, hread r hr, rfl⟩
      · refine holds_update h.holds ?_ (fun _ hr => hr) hcold
        intro r hr hparsed
        exact ⟨_, List.mem_append_right _ (mem_parquetRows.mpr ⟨r, hr, hparsed, rfl⟩), rfl⟩
    · cases hnext
  | delete a =>
    simp only [FeatureArchive.next] at hnext
    split at hnext
    · rename_i cutoff rows hphase
      obtain rfl := Option.some.inj hnext
      have hwritten := h.holds a
      rw [hphase] at hwritten
      have hread : ReadsAll pandas s.hot (s.phase a) := hcareful
      rw [hphase] at hread
      refine ⟨h.onePair, fun r hr => h.hot r (List.mem_of_mem_filter hr), h.cold, ?_, ?_⟩
      · intro r hr
        rcases h.covered r hr with hhot | hcold
        · by_cases hold : r.recordedAt < cutoff
          · obtain ⟨hmem, hparsed⟩ := hread r hhot hold
            exact .inr (hwritten r hmem hparsed)
          · exact .inl (List.mem_filter.mpr ⟨hhot, by simpa using hold⟩)
        · exact .inr hcold
      · exact holds_update h.holds trivial (fun _ hr => hr) fun _ hr => hr
    · cases hnext
  | stop a =>
    obtain rfl := Option.some.inj hnext
    refine ⟨h.onePair, h.hot, h.cold, h.covered, ?_⟩
    exact holds_update h.holds trivial (fun _ hr => hr) fun _ hr => hr

omit [DecidableEq Archiver] in
theorem Answerable.mem_queryHot {s : Store V Archiver} {q : Query} (h : Answerable pandas s q)
    {x : Snapshot (Option Time) V} : x ∈ queryHot pandas s.hot q ↔
      ∃ r ∈ s.hot, q.Matches pandas r ∧ timed pandas r = x := by
  have hhot (r : Snapshot String V) : r ∈ hotRows s.hot q ↔ r ∈ s.hot ∧ q.Matches pandas r := by
    rw [hotRows, List.mem_filter, decide_eq_true_iff]
    refine and_congr_right fun hr => and_congr_right fun _ => and_congr ?_ ?_
    · exact forall₂_congr (h.since r hr)
    · exact forall₂_congr (h.stop r hr)
  rw [queryHot, List.mem_map]
  constructor
  · rintro ⟨r, hr, rfl⟩
    obtain ⟨hmem, hmatches⟩ := (hhot r).mp hr
    refine ⟨r, hmem, hmatches, ?_⟩
    rw [parsed_eq (h.readable r hr)]
    rfl
  · rintro ⟨r, hr, hmatches, rfl⟩
    have hrow := (hhot r).mpr ⟨hr, hmatches⟩
    refine ⟨r, hrow, ?_⟩
    rw [parsed_eq (h.readable r hrow)]
    rfl

omit [DecidableEq Archiver] in
theorem Answerable.mem_queryCold {s : Store V Archiver} {q : Query} (h : Answerable pandas s q)
    {x : Snapshot (Option Time) V} : x ∈ queryCold pandas s.cold q ↔
      ∃ c ∈ s.cold, (q.Names c ∧ (∀ b ∈ q.since, b.time ≤ c.recordedAt) ∧
        ∀ b ∈ q.stop, c.recordedAt ≤ b.time) ∧ archived c = x := by
  rw [queryCold]
  split_ifs with hrefused
  · obtain ⟨hrange, hzones⟩ := hrefused
    rcases h.filters with ⟨hsince, hstop⟩ | hcompares | hnone
    · exact absurd hrange (by simp [hsince, hstop])
    · rw [hcompares] at hzones
      cases hzones
    · simp [hnone]
  · simp only [List.mem_map, List.mem_filter, decide_eq_true_iff, and_assoc]
    rfl

omit [DecidableEq Archiver] in
theorem Kept.mem_merged {s : Store V Archiver} {q : Query} (h : Kept pandas s)
    (hq : Answerable pandas s q) {i : String × String × String × Option Time} :
    i ∈ (queryHot pandas s.hot q ++ queryCold pandas s.cold q).map Snapshot.identity ↔
      ∃ r ∈ s.recorded, q.Matches pandas r ∧ (timed pandas r).identity = i := by
  -- An archived row is in the range exactly when the snapshot that it comes from is.
  have hsame (r : Snapshot String V) (c : Snapshot Time V)
      (hidentity : (timed pandas r).identity = (archived c).identity) :
      q.Matches pandas r ↔ q.Names c ∧ (∀ b ∈ q.since, b.time ≤ c.recordedAt) ∧
        ∀ b ∈ q.stop, c.recordedAt ≤ b.time := by
    simp only [timed, archived, Snapshot.restamp, Snapshot.identity, Prod.mk.injEq,
      Option.some.injEq] at hidentity
    obtain ⟨hwallet, -, hfeature, htime⟩ := hidentity
    rw [Query.Matches, Query.Names, Query.Names, hwallet, hfeature, htime]
  simp only [List.mem_map, List.mem_append]
  constructor
  · rintro ⟨x, hx | hx, rfl⟩
    · obtain ⟨r, hr, hmatches, rfl⟩ := hq.mem_queryHot.mp hx
      exact ⟨r, h.hot r hr, hmatches, rfl⟩
    · obtain ⟨c, hc, hrange, rfl⟩ := hq.mem_queryCold.mp hx
      obtain ⟨r, hr, hidentity⟩ := h.cold c hc
      exact ⟨r, hr, (hsame r c hidentity).mpr hrange, hidentity⟩
  · rintro ⟨r, hr, hmatches, rfl⟩
    rcases h.covered r hr with hhot | ⟨c, hc, hidentity⟩
    · exact ⟨_, .inl (hq.mem_queryHot.mpr ⟨r, hhot, hmatches, rfl⟩), rfl⟩
    · have hrange := (hsame r c hidentity.symm).mp hmatches
      exact ⟨_, .inr (hq.mem_queryCold.mpr ⟨c, hc, hrange, rfl⟩), hidentity⟩

omit [DecidableEq Archiver] in
theorem Kept.exact {s : Store V Archiver} {q : Query} (h : Kept pandas s)
    (hq : Answerable pandas s q) : Exact pandas s q := by
  constructor
  · have hkeys := nodup_dropDuplicates [] (queryHot pandas s.hot q ++ queryCold pandas s.cold q)
    have hmap : (query pandas s q).map Snapshot.dedupKey =
        ((query pandas s q).map Snapshot.identity).map fun i => (i.1, i.2.2.1, i.2.2.2) := by
      rw [List.map_map]
      rfl
    rw [← query, hmap] at hkeys
    exact List.Nodup.of_map _ hkeys
  · intro i
    constructor
    · intro hi
      obtain ⟨x, hx, rfl⟩ := List.mem_map.mp hi
      exact (h.mem_merged hq).mp (List.mem_map_of_mem (mem_dropDuplicates hx).1)
    · intro hi
      obtain ⟨r, hr, -, rfl⟩ := id hi
      obtain ⟨x, hx, hidentity⟩ := List.mem_map.mp ((h.mem_merged hq).mpr hi)
      obtain ⟨y, hy, hkey⟩ := dropDuplicates_covers hx List.not_mem_nil
      -- The row that is kept for the key is of a recorded snapshot too, and so of the same pair.
      obtain ⟨r', hr', -, hidentity'⟩ :=
        (h.mem_merged hq).mp (List.mem_map_of_mem (mem_dropDuplicates hy).1)
      have hkeys : (timed pandas r').dedupKey = (timed pandas r).dedupKey := by
        rw [dedupKey_of_identity hidentity', hkey, dedupKey_of_identity hidentity]
      have hpair : (timed pandas r').assetPair = (timed pandas r).assetPair :=
        h.onePair r' hr' r hr hkeys
      rw [← identity_of_dedupKey hkeys hpair, hidentity']
      exact List.mem_map_of_mem hy

/-- In a run whose records and deletions are careful an answerable query returns every snapshot ever
recorded in its range, once. -/
theorem query_exact {rows : List (Snapshot String V)} {s : Store V Archiver}
    {ls : List (Label V Archiver)} {q : Query} (hrows : OnePair pandas rows)
    (hrun : Run (fun s l t => next pandas s l = some t ∧ Careful pandas s l)
      (.stored Archiver rows) ls s)
    (hq : Answerable pandas s q) : Exact pandas s q := by
  have hkept : Kept pandas s :=
    hrun.invariant (fun _ _ _ hold hstep => hold.next hstep.1 hstep.2) (kept_stored rows hrows)
  exact hkept.exact hq

end Runs

section Examples

def noon : String := "2025-03-15T12:00:00+00:00"

theorem noon_sound (_ : List String) (_ : String) (time : Time)
    (h : some 1742040000000000 = some time) : time = 1742040000000000 :=
  (Option.some.inj h).symm

def atNoon : Pandas where
  timeOf _ := 1742040000000000
  toDatetime _ _ := some 1742040000000000
  sound := noon_sound
  comparesZones := false

def benford (assetPair featureName : String) : Snapshot String ℕ :=
  ⟨"GA1", assetPair, featureName, 1, noon⟩

def everything : Query := ⟨none, none, none, none⟩

def archivedLater : List (Label ℕ Unit) :=
  [.record [benford "XLM/USDC" "benford_mad_1h", benford "XLM/USDC" "benford_mad_4h"],
    .select () "2025-04-20T00:00:00+00:00", .write (), .delete ()]

theorem query_exact_archived : ∃ s : Store ℕ Unit,
    s.hot = [] ∧ s.recorded.length = 2 ∧ Exact atNoon s everything := by
  have hrun : ((archivedLater.foldlM (fun s l => if Careful atNoon s l then next atNoon s l
      else none) (.stored Unit [])).any fun s => decide (s.hot = [] ∧ s.recorded.length = 2)) =
        true := by
    decide +kernel
  obtain ⟨s, hs, hend⟩ := (Option.any_eq_true _ _).mp hrun
  obtain ⟨hhot, hrecorded⟩ := of_decide_eq_true hend
  have hanswerable : Answerable atNoon s everything := by
    constructor
    · intro r hr
      exact Option.some_ne_none _
    · exact fun _ _ b hb => absurd hb (Option.not_mem_none b)
    · exact fun _ _ b hb => absurd hb (Option.not_mem_none b)
    · exact .inl ⟨rfl, rfl⟩
  have hpair : OnePair atNoon ([] : List (Snapshot String ℕ)) :=
    fun _ hr => absurd hr List.not_mem_nil
  exact ⟨s, hhot, hrecorded, query_exact hpair (run_iff_foldlM.mpr hs) hanswerable⟩

/-- Of one feature of a wallet in two pairs, recorded in one batch, a query returns only one. -/
theorem second_pair_lost : ¬ ∀ (pandas : Pandas) (rows : List (Snapshot String ℕ))
    (s : Store ℕ Unit) (ls : List (Label ℕ Unit)) (q : Query),
    Run (fun s l t => next pandas s l = some t) (.stored Unit rows) ls s → Exact pandas s q := by
  intro h
  let batch := [benford "XLM/USDC" "benford_mad_1h", benford "XLM/EURC" "benford_mad_1h"]
  let s : Store ℕ Unit := ⟨batch, [], fun _ => .idle, batch⟩
  have hstep : next atNoon (.stored Unit []) (.record batch) = some s := rfl
  have hexact := h atNoon [] s [.record batch] everything (.single hstep)
  have hmatches : everything.Matches atNoon (benford "XLM/EURC" "benford_mad_1h") :=
    ⟨⟨fun b hb => absurd hb (Option.not_mem_none b), fun b hb => absurd hb (Option.not_mem_none b)⟩,
      fun b hb => absurd hb (Option.not_mem_none b), fun b hb => absurd hb (Option.not_mem_none b)⟩
  have hreturned := (hexact.all _).mpr
    ⟨benford "XLM/EURC" "benford_mad_1h", List.mem_cons_of_mem _ List.mem_cons_self, hmatches, rfl⟩
  exact absurd hreturned (by decide +kernel)

end Examples

end FeatureArchive
