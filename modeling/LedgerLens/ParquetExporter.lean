import LedgerLens.SqlTables
import Mathlib.Algebra.GroupWithZero.Nat
import Mathlib.Data.List.AList
import Mathlib.Data.List.Dedup
import Mathlib.Data.List.Induction
import Mathlib.Data.List.Perm.Subperm
import Mathlib.Data.String.Basic

/-!
# Incremental Parquet exports

`ingestion/parquet_exporter.py`: the trades of SQLite, the partition files, and the manifest that
later exports compare with. A partition's path and its key in the manifest are texts of its date
and its normalised pair, and are kept as these two. The sizes, hashes and times of the manifest,
which nothing compares, are left out, and so are the columns that only go along with a trade.
-/
namespace ParquetExporter

open SqlTables

structure Trade where
  pagingToken : String
  ledgerCloseTime : String
  baseAssetCode : String
  counterAssetCode : String
  deriving DecidableEq

/-- `base_asset_code || '/' || counter_asset_code`. -/
def Trade.pair (r : Trade) : String := r.baseAssetCode ++ "/" ++ r.counterAssetCode

/-- `paging_token` is the primary key. -/
abbrev Trades := UniqueTable Trade fun a b => a.pagingToken = b.pagingToken

/-- A calendar date by its ordinal. -/
abbrev Date := ℕ

/-- Other characters than ASCII letters and digits become underscores, letters capitals. -/
def normaliseAssetPair (assetPair : String) : String :=
  String.ofList (assetPair.toList.map fun c => if c.isAlphanum then c.toUpper else '_')

structure Partition where
  date : Date
  pairKey : String
  deriving DecidableEq

def Partition.of (date : Date) (assetPair : String) : Partition :=
  ⟨date, normaliseAssetPair assetPair⟩

/-- What the manifest says of a partition. -/
structure Entry where
  records : ℕ
  maxPagingToken : String
  deriving DecidableEq

structure Manifest where
  partitions : AList fun _ : Partition => Entry
  partitionIndex : AList fun _ : Partition => Entry

/-- A directory without a manifest has an empty one. -/
structure Directory where
  files : Partition → Option (List Trade)
  manifest : Manifest

def Directory.empty : Directory := ⟨fun _ => none, ⟨∅, ∅⟩⟩

structure Filter where
  since : Option Date
  stop : Option Date
  assetPair : Option String

def unfiltered : Filter := ⟨none, none, none⟩

/-- A write is done, or raises before or after the file is in its place. -/
inductive Write where
  | done
  | failed (replaced : Bool)
  deriving DecidableEq

/-- What the writes of an export meet. -/
structure Faults where
  parquet : Date → String → Write
  manifest : Write

def faultless : Faults := ⟨fun _ _ => .done, .done⟩

section Exporter

-- `DATE()` of a close time, where Python reads the text it gives as a date.
variable (sqlDate : String → Option Date)

def Trade.date (r : Trade) : Option Date := sqlDate r.ledgerCloseTime

def Filter.Passes (filter : Filter) (r : Trade) : Prop :=
  (∀ since ∈ filter.since, ∃ d ∈ r.date sqlDate, since ≤ d) ∧
  (∀ stop ∈ filter.stop, ∃ d ∈ r.date sqlDate, d ≤ stop) ∧
  ∀ assetPair ∈ filter.assetPair, r.pair = assetPair

instance (filter : Filter) (r : Trade) : Decidable (filter.Passes sqlDate r) :=
  inferInstanceAs (Decidable (_ ∧ _ ∧ _))

/-- `SELECT DISTINCT … ORDER BY partition_date ASC, pair ASC`. -/
def iterPartitions (t : Trades) (filter : Filter) : List (Date × String) :=
  ((t.rows.filter fun r => filter.Passes sqlDate r).filterMap fun r =>
      (r.date sqlDate).map fun d => (d, r.pair)).dedup.mergeSort
    fun a b => decide (a.1 < b.1 ∨ a.1 = b.1 ∧ a.2 ≤ b.2)

/-- `WHERE DATE(ledger_close_time) = ? AND (base_asset_code || '/' || counter_asset_code) = ?`. -/
def selectRows (t : Trades) (date : Date) (assetPair : String) : List Trade :=
  t.rows.filter fun r => r.date sqlDate = some date ∧ r.pair = assetPair

def fetchRows (t : Trades) (date : Date) (assetPair : String) : List Trade :=
  (selectRows sqlDate t date assetPair).mergeSort fun a b =>
    decide (a.ledgerCloseTime < b.ledgerCloseTime ∨
      a.ledgerCloseTime = b.ledgerCloseTime ∧ a.pagingToken ≤ b.pagingToken)

def maxToken (rows : List Trade) : Option String := (rows.map Trade.pagingToken).max?

/-- The count or the maximal token is not the one of the manifest, which goes by the key. -/
def Changed (t : Trades) (date : Date) (assetPair : String) (manifest : Manifest) : Prop :=
  let rows := selectRows sqlDate t date assetPair
  rows ≠ [] ∧ ∀ prev ∈ manifest.partitionIndex.lookup (.of date assetPair),
    prev.records ≠ rows.length ∨ some prev.maxPagingToken ≠ maxToken rows

instance (t : Trades) (date : Date) (assetPair : String) (manifest : Manifest) :
    Decidable (Changed sqlDate t date assetPair manifest) :=
  inferInstanceAs (Decidable (_ ∧ ∀ _ ∈ _, _))

structure PartitionResult where
  partition : Partition
  records : ℕ
  maxPagingToken : String
  deriving DecidableEq

structure Progress where
  files : Partition → Option (List Trade)
  results : List PartitionResult
  skipped : ℕ

def Progress.write (p : Progress) (k : Partition) (rows : List Trade) : Progress :=
  { p with files := Function.update p.files k (some rows) }

@[simp] theorem Progress.files_write_self (p : Progress) (k : Partition) (rows : List Trade) :
    (p.write k rows).files k = some rows := Function.update_self ..

theorem Progress.files_write_of_ne (p : Progress) {k k' : Partition} (h : k' ≠ k)
    (rows : List Trade) : (p.write k rows).files k' = p.files k' := Function.update_of_ne h ..

/-- One partition, and whether the loop goes on. -/
def exportOne (t : Trades) (manifest : Manifest) (force : Bool) (faults : Faults) (p : Progress)
    (date : Date) (assetPair : String) : Progress × Bool :=
  let rows := fetchRows sqlDate t date assetPair
  if (¬ force ∧ ¬ Changed sqlDate t date assetPair manifest) ∨ rows = [] then
    ({ p with skipped := p.skipped + 1 }, true)
  else
    match faults.parquet date assetPair with
    | .failed replaced => (if replaced then p.write (.of date assetPair) rows else p, false)
    | .done =>
      let result := ⟨.of date assetPair, rows.length,
        ((rows.map Trade.pagingToken).filter (· ≠ "")).max?.getD ""⟩
      ({ p.write (.of date assetPair) rows with results := p.results ++ [result] }, true)

def exportAll (t : Trades) (manifest : Manifest) (force : Bool) (faults : Faults) (p : Progress) :
    List (Date × String) → Progress × Bool
  | [] => (p, true)
  | (date, assetPair) :: rest =>
    let (p, goesOn) := exportOne sqlDate t manifest force faults p date assetPair
    if goesOn then exportAll t manifest force faults p rest else (p, false)

/-- The merge of `_write_manifest`: later results replace earlier ones of their path and key. -/
def mergeResults (manifest : Manifest) (results : List PartitionResult) : Manifest :=
  results.foldl (fun m r =>
    ⟨m.partitions.insert r.partition ⟨r.records, r.maxPagingToken⟩,
      m.partitionIndex.insert r.partition ⟨r.records, r.maxPagingToken⟩⟩) manifest

structure ExportResult where
  totalPartitions : ℕ
  exportedPartitions : ℕ
  skippedPartitions : ℕ
  totalRecordsExported : ℕ
  deriving DecidableEq

/-- `export`: its result, if it returns one, and the directory after it. -/
def runExport (t : Trades) (d : Directory) (filter : Filter) (force : Bool) (faults : Faults) :
    Option ExportResult × Directory :=
  let partitions := iterPartitions sqlDate t filter
  let (p, finished) := exportAll sqlDate t d.manifest force faults ⟨d.files, [], 0⟩ partitions
  if finished then
    let manifest := mergeResults d.manifest p.results
    match faults.manifest with
    | .done =>
      (some ⟨partitions.length, p.results.length, p.skipped,
        (p.results.map PartitionResult.records).sum⟩, ⟨p.files, manifest⟩)
    | .failed replaced => (none, ⟨p.files, if replaced then manifest else d.manifest⟩)
  else (none, ⟨p.files, d.manifest⟩)

inductive Command where
  | insert (trades : List Trade)
  | runExport (filter : Filter) (force : Bool) (faults : Faults)

structure Store where
  trades : Trades
  directory : Directory

def Store.initial : Store := ⟨UniqueTable.empty, .empty⟩

def Store.step (s : Store) : Command → Store
  | .insert trades => { s with trades := trades.foldl UniqueTable.insertOrIgnore s.trades }
  | .runExport filter force faults =>
    { s with directory := (runExport sqlDate s.trades s.directory filter force faults).2 }

def after (commands : List Command) : Store := commands.foldl (Store.step sqlDate) .initial

def held (d : Directory) : List Trade :=
  d.manifest.partitions.keys.flatMap fun k => (d.files k).getD []

/-- The rows that have a date. -/
def dated (t : Trades) : List Trade := t.rows.filter fun r => (r.date sqlDate).isSome

/-- The listed files hold every dated row once, as those of a forced export into an empty directory
do. -/
def Lossless (t : Trades) (d : Directory) : Prop :=
  (held d).Perm (dated sqlDate t) ∧
    (held d).Perm (held (runExport sqlDate t .empty unfiltered true faultless).2)

def DistinctKeys (t : Trades) : Prop :=
  ∀ r ∈ t.rows, ∀ r' ∈ t.rows, ∀ date, r.date sqlDate = some date → r'.date sqlDate = some date →
    normaliseAssetPair r.pair = normaliseAssetPair r'.pair → r.pair = r'.pair

variable {sqlDate} {t t' : Trades} {d : Directory} {k : Partition}

theorem mem_selectRows {date : Date} {assetPair : String} {r : Trade} :
    r ∈ selectRows sqlDate t date assetPair ↔
      r ∈ t.rows ∧ r.date sqlDate = some date ∧ r.pair = assetPair := by
  simp [selectRows]

theorem nodup_rows (t : Trades) : t.rows.Nodup :=
  t.distinct.imp fun hclash heq => hclash (congrArg Trade.pagingToken heq)

variable (sqlDate) in
theorem fetchRows_perm (t : Trades) (date : Date) (assetPair : String) :
    (fetchRows sqlDate t date assetPair).Perm (selectRows sqlDate t date assetPair) :=
  List.mergeSort_perm _ _

variable (sqlDate) in
structure Fits (t : Trades) (k : Partition) (rows : List Trade) : Prop where
  nonempty : rows ≠ []
  nodup : rows.Nodup
  single : ∃ p, normaliseAssetPair p = k.pairKey ∧ rows ⊆ selectRows sqlDate t k.date p

variable (sqlDate) in
def Owned (t : Trades) (k : Partition) : Prop :=
  ∀ p q, normaliseAssetPair p = k.pairKey → normaliseAssetPair q = k.pairKey →
    selectRows sqlDate t k.date p ≠ [] → selectRows sqlDate t k.date q ≠ [] → p = q

variable (sqlDate) in
/-- The partition has a file, and unless its key is shared the file has at least `n` rows. -/
def Covers (t : Trades) (files : Partition → Option (List Trade)) (k : Partition) (n : ℕ) : Prop :=
  ∃ rows, files k = some rows ∧ (Owned sqlDate t k → n ≤ rows.length)

theorem selectRows_mono (h : t.rows ⊆ t'.rows) (date : Date) (assetPair : String) :
    selectRows sqlDate t date assetPair ⊆ selectRows sqlDate t' date assetPair := by
  intro r hr
  obtain ⟨hmem, hrest⟩ := mem_selectRows.mp hr
  exact mem_selectRows.mpr ⟨h hmem, hrest⟩

theorem Fits.mono {rows : List Trade} (hfits : Fits sqlDate t k rows) (h : t.rows ⊆ t'.rows) :
    Fits sqlDate t' k rows := by
  obtain ⟨p, hp, hsub⟩ := hfits.single
  exact ⟨hfits.nonempty, hfits.nodup, p, hp, List.Subset.trans hsub (selectRows_mono h _ _)⟩

theorem Owned.anti (howned : Owned sqlDate t' k) (h : t.rows ⊆ t'.rows) : Owned sqlDate t k := by
  intro p q hp hq hrows hrows'
  have grown {assetPair : String} (hne : selectRows sqlDate t k.date assetPair ≠ []) :
      selectRows sqlDate t' k.date assetPair ≠ [] := by
    intro hnil
    have hsub : selectRows sqlDate t k.date assetPair ⊆ [] := hnil ▸ selectRows_mono h _ _
    exact hne (List.subset_nil.mp hsub)
  exact howned p q hp hq (grown hrows) (grown hrows')

theorem DistinctKeys.owned (h : DistinctKeys sqlDate t) (k : Partition) : Owned sqlDate t k := by
  intro p q hp hq hrows hrows'
  obtain ⟨r, hr⟩ := List.exists_mem_of_ne_nil _ hrows
  obtain ⟨r', hr'⟩ := List.exists_mem_of_ne_nil _ hrows'
  obtain ⟨hmem, hdate, rfl⟩ := mem_selectRows.mp hr
  obtain ⟨hmem', hdate', rfl⟩ := mem_selectRows.mp hr'
  exact h r hmem r' hmem' k.date hdate hdate' (hp.trans hq.symm)

theorem fits_fetchRows {date : Date} {assetPair : String}
    (h : fetchRows sqlDate t date assetPair ≠ []) :
    Fits sqlDate t (.of date assetPair) (fetchRows sqlDate t date assetPair) := by
  have hperm := fetchRows_perm sqlDate t date assetPair
  exact ⟨h, hperm.nodup_iff.mpr ((nodup_rows t).filter _), assetPair, rfl, hperm.subset⟩

theorem Fits.length_le {rows : List Trade} (hfits : Fits sqlDate t k rows)
    (howned : Owned sqlDate t k) {p : String} (hp : normaliseAssetPair p = k.pairKey)
    (hrows : selectRows sqlDate t k.date p ≠ []) :
    rows.Subperm (selectRows sqlDate t k.date p) := by
  obtain ⟨q, hq, hsub⟩ := hfits.single
  obtain ⟨r, hr⟩ := List.exists_mem_of_ne_nil _ hfits.nonempty
  obtain rfl := howned p q hp hq hrows (List.ne_nil_of_mem (hsub hr))
  exact List.subperm_of_subset hfits.nodup hsub

/-- A new file is no shorter than the one it replaces, unless the key is shared. -/
theorem Covers.write {files : Partition → Option (List Trade)} {n : ℕ}
    (h : Covers sqlDate t files k n)
    (hfiles : ∀ k rows, files k = some rows → Fits sqlDate t k rows) {date : Date}
    {assetPair : String} (hrows : fetchRows sqlDate t date assetPair ≠ []) :
    Covers sqlDate t (Function.update files (.of date assetPair)
      (some (fetchRows sqlDate t date assetPair))) k n := by
  obtain ⟨rows, hfile, hlen⟩ := h
  by_cases hk : k = .of date assetPair
  · subst hk
    refine ⟨_, Function.update_self .., ?_⟩
    intro howned
    have hperm := fetchRows_perm sqlDate t date assetPair
    have hselected : selectRows sqlDate t date assetPair ≠ [] := by
      intro hnil
      rw [hnil] at hperm
      exact hrows hperm.eq_nil
    have hsub := (hfiles _ rows hfile).length_le howned rfl hselected
    exact (hlen howned).trans (hsub.length_le.trans hperm.length_eq.ge)
  · exact ⟨rows, by rw [Function.update_of_ne hk, hfile], hlen⟩

structure Going (sqlDate : String → Option Date) (t : Trades) (m : Manifest) (p : Progress) :
    Prop where
  files : ∀ k rows, p.files k = some rows → Fits sqlDate t k rows
  indexed : ∀ k e, m.partitionIndex.lookup k = some e → Covers sqlDate t p.files k e.records
  exported : ∀ r ∈ p.results, Covers sqlDate t p.files r.partition r.records

variable {m : Manifest} {p : Progress} {force : Bool} {faults : Faults} {date : Date}
  {assetPair : String}

theorem Going.write (h : Going sqlDate t m p) (hrows : fetchRows sqlDate t date assetPair ≠ []) :
    Going sqlDate t m (p.write (.of date assetPair) (fetchRows sqlDate t date assetPair)) where
  files k rows hfile := by
    by_cases hk : k = .of date assetPair
    · subst hk
      rw [Progress.files_write_self] at hfile
      obtain rfl := Option.some.inj hfile
      exact fits_fetchRows hrows
    · rw [p.files_write_of_ne hk] at hfile
      exact h.files k rows hfile
  indexed k e he := (h.indexed k e he).write h.files hrows
  exported r hr := (h.exported r hr).write h.files hrows

def Settled (sqlDate : String → Option Date) (t : Trades) (m : Manifest)
    (results : List PartitionResult) (date : Date) (assetPair : String) : Prop :=
  (∃ r ∈ results, r.partition = .of date assetPair ∧
    r.records = (selectRows sqlDate t date assetPair).length) ∨
  ∃ e, m.partitionIndex.lookup (.of date assetPair) = some e ∧
    e.records = (selectRows sqlDate t date assetPair).length

theorem Settled.mono {results results' : List PartitionResult}
    (h : Settled sqlDate t m results date assetPair) (hsub : results ⊆ results') :
    Settled sqlDate t m results' date assetPair := by
  refine h.imp_left ?_
  intro ⟨r, hr, hrest⟩
  exact ⟨r, hsub hr, hrest⟩

theorem settled_of_not_changed {results : List PartitionResult}
    (h : ¬ Changed sqlDate t date assetPair m)
    (hrows : selectRows sqlDate t date assetPair ≠ []) :
    Settled sqlDate t m results date assetPair := by
  right
  by_contra hnone
  refine h ⟨hrows, ?_⟩
  intro prev hprev
  by_contra hsame
  exact hnone ⟨prev, hprev, not_not.mp fun hcount => hsame (.inl hcount)⟩

theorem exportOne_spec (h : Going sqlDate t m p) (faults : Faults) (date : Date)
    (assetPair : String) :
    let next := exportOne sqlDate t m force faults p date assetPair
    Going sqlDate t m next.1 ∧ p.results ⊆ next.1.results ∧
      (next.2 = true → selectRows sqlDate t date assetPair ≠ [] →
        Settled sqlDate t m next.1.results date assetPair) := by
  have hperm := fetchRows_perm sqlDate t date assetPair
  simp only [exportOne]
  split_ifs with hskip
  · refine ⟨⟨h.files, h.indexed, h.exported⟩, List.Subset.refl _, ?_⟩
    intro _ hrows
    rcases hskip with ⟨-, hsame⟩ | hnil
    · exact settled_of_not_changed hsame hrows
    · rw [hnil] at hperm
      exact absurd hperm.symm.eq_nil hrows
  · obtain ⟨-, hrows⟩ := not_or.mp hskip
    cases faults.parquet date assetPair with
    | failed replaced =>
      cases replaced with
      | true => exact ⟨h.write hrows, List.Subset.refl _, nofun⟩
      | false => exact ⟨h, List.Subset.refl _, nofun⟩
    | done =>
      have hwritten := h.write hrows
      refine ⟨⟨hwritten.files, hwritten.indexed, ?_⟩, List.subset_append_left _ _, ?_⟩
      · intro r hr
        rcases List.mem_append.mp hr with hold | hnew
        · exact hwritten.exported r hold
        · obtain rfl := List.mem_singleton.mp hnew
          exact ⟨_, p.files_write_self .., fun _ => le_rfl⟩
      · intro _ _
        exact .inl ⟨_, List.mem_append_right _ (List.mem_singleton.mpr rfl), rfl,
          hperm.length_eq⟩

theorem exportAll_spec (partitions : List (Date × String)) (h : Going sqlDate t m p) :
    let last := exportAll sqlDate t m force faults p partitions
    Going sqlDate t m last.1 ∧ p.results ⊆ last.1.results ∧
      (last.2 = true → ∀ dp ∈ partitions, selectRows sqlDate t dp.1 dp.2 ≠ [] →
        Settled sqlDate t m last.1.results dp.1 dp.2) := by
  induction partitions generalizing p with
  | nil => exact ⟨h, List.Subset.refl _, fun _ => nofun⟩
  | cons dp partitions ih =>
    obtain ⟨date, assetPair⟩ := dp
    obtain ⟨hgoing, hsub, hsettled⟩ := @exportOne_spec _ _ _ _ force h faults date assetPair
    simp only [exportAll]
    cases hgoes : (exportOne sqlDate t m force faults p date assetPair).2 with
    | false => exact ⟨hgoing, hsub, nofun⟩
    | true =>
      obtain ⟨hlast, hmore, hrest⟩ := ih hgoing
      refine ⟨hlast, List.Subset.trans hsub hmore, ?_⟩
      intro hfinished dp hdp hrows
      rcases List.mem_cons.mp hdp with rfl | hdp
      · exact (hsettled hgoes hrows).mono hmore
      · exact hrest hfinished dp hdp hrows

theorem exportAll_faultless (partitions : List (Date × String)) :
    (exportAll sqlDate t m force faultless p partitions).2 = true := by
  induction partitions generalizing p with
  | nil => rfl
  | cons dp partitions ih =>
    have hgoes : (exportOne sqlDate t m force faultless p dp.1 dp.2).2 = true := by
      simp only [exportOne, faultless]
      split_ifs <;> rfl
    simp only [exportAll, hgoes, if_true]
    exact ih

theorem mergeResults_concat (m : Manifest) (results : List PartitionResult) (r : PartitionResult) :
    mergeResults m (results ++ [r]) =
      ⟨(mergeResults m results).partitions.insert r.partition ⟨r.records, r.maxPagingToken⟩,
        (mergeResults m results).partitionIndex.insert r.partition
          ⟨r.records, r.maxPagingToken⟩⟩ := by
  rw [mergeResults, List.foldl_append]
  rfl

theorem lookup_mergeResults {results : List PartitionResult} {e : Entry}
    (h : (mergeResults m results).partitionIndex.lookup k = some e) :
    (∃ r ∈ results, r.partition = k ∧ r.records = e.records) ∨
      m.partitionIndex.lookup k = some e := by
  induction results using List.reverseRecOn with
  | nil => exact .inr h
  | append_singleton results r ih =>
    rw [mergeResults_concat] at h
    by_cases hk : k = r.partition
    · subst hk
      rw [AList.lookup_insert] at h
      obtain rfl := Option.some.inj h
      exact .inl ⟨r, by simp, rfl, rfl⟩
    · rw [AList.lookup_insert_ne hk] at h
      refine (ih h).imp_left ?_
      intro ⟨r', hr', hrest⟩
      exact ⟨r', List.mem_append_left _ hr', hrest⟩

theorem mem_mergeResults {results : List PartitionResult} :
    (k ∈ (mergeResults m results).partitions ↔
      (∃ r ∈ results, r.partition = k) ∨ k ∈ m.partitions) ∧
    (k ∈ (mergeResults m results).partitionIndex ↔
      (∃ r ∈ results, r.partition = k) ∨ k ∈ m.partitionIndex) := by
  induction results using List.reverseRecOn with
  | nil => simp [mergeResults]
  | append_singleton results r ih =>
    have hsplit : (∃ x ∈ results ++ [r], x.partition = k) ↔
        k = r.partition ∨ ∃ x ∈ results, x.partition = k := by
      simp only [List.mem_append, List.mem_singleton, or_and_right, exists_or, exists_eq_left]
      rw [or_comm, eq_comm]
    rw [mergeResults_concat, AList.mem_insert, AList.mem_insert, ih.1, ih.2, hsplit, or_assoc,
      or_assoc]
    exact ⟨Iff.rfl, Iff.rfl⟩

/-- What every export leaves of the directory. -/
structure Sound (sqlDate : String → Option Date) (t : Trades) (d : Directory) : Prop where
  files : ∀ k rows, d.files k = some rows → Fits sqlDate t k rows
  indexed : ∀ k e, d.manifest.partitionIndex.lookup k = some e →
    Covers sqlDate t d.files k e.records
  listed : ∀ k, k ∈ d.manifest.partitions ↔ k ∈ d.manifest.partitionIndex

theorem sound_empty : Sound sqlDate t .empty where
  files := nofun
  indexed := nofun
  listed _ := Iff.rfl

theorem Sound.mono (h : Sound sqlDate t d) (hsub : t.rows ⊆ t'.rows) : Sound sqlDate t' d where
  files k rows hfile := (h.files k rows hfile).mono hsub
  indexed k e he := by
    obtain ⟨rows, hfile, hlen⟩ := h.indexed k e he
    exact ⟨rows, hfile, fun howned => hlen (howned.anti hsub)⟩
  listed := h.listed

theorem Sound.going (h : Sound sqlDate t d) : Going sqlDate t d.manifest ⟨d.files, [], 0⟩ :=
  ⟨h.files, h.indexed, nofun⟩

theorem Going.sound (h : Going sqlDate t m p)
    (hlisted : ∀ k, k ∈ m.partitions ↔ k ∈ m.partitionIndex) :
    Sound sqlDate t ⟨p.files, mergeResults m p.results⟩ where
  files := h.files
  indexed k e he := by
    rcases lookup_mergeResults he with ⟨r, hr, rfl, hrecords⟩ | hold
    · rw [← hrecords]
      exact h.exported r hr
    · exact h.indexed k e hold
  listed k := by
    rw [mem_mergeResults.1, mem_mergeResults.2, hlisted]

theorem Sound.exported (h : Sound sqlDate t d) (filter : Filter) (force : Bool)
    (faults : Faults) : Sound sqlDate t (runExport sqlDate t d filter force faults).2 := by
  obtain ⟨hgoing, -, -⟩ := @exportAll_spec _ _ _ _ force faults
    (iterPartitions sqlDate t filter) h.going
  have hold : Sound sqlDate t ⟨(exportAll sqlDate t d.manifest force faults ⟨d.files, [], 0⟩
      (iterPartitions sqlDate t filter)).1.files, d.manifest⟩ :=
    ⟨hgoing.files, hgoing.indexed, h.listed⟩
  simp only [runExport]
  split_ifs with hfinished
  · cases faults.manifest with
    | done => exact hgoing.sound h.listed
    | failed replaced =>
      cases replaced with
      | true => exact hgoing.sound h.listed
      | false => exact hold
  · exact hold

theorem rows_insertAll (trades : List Trade) (t : Trades) :
    t.rows ⊆ (trades.foldl UniqueTable.insertOrIgnore t).rows := by
  induction trades generalizing t with
  | nil => exact List.Subset.refl _
  | cons r trades ih =>
    intro row hrow
    exact ih _ (UniqueTable.mem_insertOrIgnore_of_mem hrow)

theorem sound_after (commands : List Command) :
    Sound sqlDate (after sqlDate commands).trades (after sqlDate commands).directory := by
  induction commands using List.reverseRecOn with
  | nil => exact sound_empty
  | append_singleton commands c ih =>
    rw [after, List.foldl_append]
    cases c with
    | insert trades => exact ih.mono (rows_insertAll trades _)
    | runExport filter force faults => exact ih.exported filter force faults

theorem mem_held {r : Trade} :
    r ∈ held d ↔ ∃ k ∈ d.manifest.partitions, ∃ rows, d.files k = some rows ∧ r ∈ rows := by
  simp only [held, List.mem_flatMap]
  constructor
  · intro ⟨k, hk, hr⟩
    cases hfile : d.files k with
    | none => simp [hfile] at hr
    | some rows => exact ⟨k, hk, rows, hfile, by simpa [hfile] using hr⟩
  · intro ⟨k, hk, rows, hfile, hr⟩
    exact ⟨k, hk, by simpa [hfile] using hr⟩

theorem Sound.of_mem (h : Sound sqlDate t d) {rows : List Trade} {r : Trade}
    (hfile : d.files k = some rows) (hr : r ∈ rows) :
    r ∈ t.rows ∧ r.date sqlDate = some k.date ∧ normaliseAssetPair r.pair = k.pairKey := by
  obtain ⟨p, hp, hsub⟩ := (h.files k rows hfile).single
  obtain ⟨hmem, hdate, rfl⟩ := mem_selectRows.mp (hsub hr)
  exact ⟨hmem, hdate, hp⟩

theorem Sound.nodup_held (h : Sound sqlDate t d) : (held d).Nodup := by
  rw [held, List.nodup_flatMap]
  constructor
  · intro k _
    cases hfile : d.files k with
    | none => exact List.nodup_nil
    | some rows => exact (h.files k rows hfile).nodup
  · refine d.manifest.partitions.keys_nodup.imp ?_
    intro k k' hne r hr hr'
    refine hne ?_
    cases hfile : d.files k with
    | none => simp [hfile] at hr
    | some rows =>
      cases hfile' : d.files k' with
      | none => simp [hfile'] at hr'
      | some rows' =>
        obtain ⟨-, hdate, hkey⟩ := h.of_mem hfile (by simpa [hfile] using hr)
        obtain ⟨-, hdate', hkey'⟩ := h.of_mem hfile' (by simpa [hfile'] using hr')
        have hsame : k.date = k'.date := Option.some.inj (hdate.symm.trans hdate')
        cases k
        cases k'
        exact congrArg₂ Partition.mk hsame (hkey.symm.trans hkey')

/-- Files of distinct pairs cannot share a key, so a directory that holds every row shows that no
two pairs do. -/
theorem Sound.distinctKeys (h : Sound sqlDate t d) (hperm : (held d).Perm (dated sqlDate t)) :
    DistinctKeys sqlDate t := by
  intro r hr r' hr' date hdate hdate' hkey
  have hfind {x : Trade} (hx : x ∈ t.rows) (hxdate : x.date sqlDate = some date) :
      ∃ rows, d.files (.of date x.pair) = some rows ∧ x ∈ rows := by
    have hdated : x ∈ dated sqlDate t := List.mem_filter.mpr ⟨hx, by rw [hxdate]; rfl⟩
    obtain ⟨k, -, rows, hfile, hmem⟩ := mem_held.mp (hperm.mem_iff.mpr hdated)
    obtain ⟨-, hkdate, hkkey⟩ := h.of_mem hfile hmem
    have hk : k = .of date x.pair := by
      cases k
      exact congrArg₂ Partition.mk (Option.some.inj (hkdate.symm.trans hxdate)) hkkey.symm
    exact ⟨rows, hk ▸ hfile, hmem⟩
  obtain ⟨rows, hfile, hmem⟩ := hfind hr hdate
  obtain ⟨rows', hfile', hmem'⟩ := hfind hr' hdate'
  have hsame : Partition.of date r.pair = .of date r'.pair := congrArg (Partition.mk date) hkey
  rw [hsame] at hfile
  obtain rfl := Option.some.inj (hfile.symm.trans hfile')
  obtain ⟨p, -, hsub⟩ := (h.files _ rows hfile').single
  exact (mem_selectRows.mp (hsub hmem)).2.2.trans (mem_selectRows.mp (hsub hmem')).2.2.symm

theorem mem_iterPartitions {r : Trade} (hr : r ∈ t.rows) (hdate : r.date sqlDate = some date) :
    (date, r.pair) ∈ iterPartitions sqlDate t unfiltered := by
  rw [iterPartitions, List.mem_mergeSort, List.mem_dedup, List.mem_filterMap]
  refine ⟨r, List.mem_filter.mpr ⟨hr, ?_⟩, by rw [hdate]; rfl⟩
  exact decide_eq_true ⟨nofun, nofun, nofun⟩

/-- After an export of everything each file of a key that is not shared holds the present rows. -/
theorem Sound.complete (h : Sound sqlDate t d) (hkeys : DistinctKeys sqlDate t) (force : Bool) :
    (held (runExport sqlDate t d unfiltered force faultless).2).Perm (dated sqlDate t) := by
  have hsound := h.exported unfiltered force faultless
  obtain ⟨hgoing, -, hsettled⟩ := @exportAll_spec _ _ _ _ force faultless
    (iterPartitions sqlDate t unfiltered) h.going
  have hfinished := @exportAll_faultless sqlDate t d.manifest ⟨d.files, [], 0⟩ force
    (iterPartitions sqlDate t unfiltered)
  generalize hlast : exportAll sqlDate t d.manifest force faultless ⟨d.files, [], 0⟩
    (iterPartitions sqlDate t unfiltered) = last at hgoing hsettled hfinished
  have hdirectory : (runExport sqlDate t d unfiltered force faultless).2 =
      ⟨last.1.files, mergeResults d.manifest last.1.results⟩ := by
    simp only [runExport, hlast, hfinished, if_true]
    rfl
  rw [hdirectory] at hsound ⊢
  refine (List.perm_ext_iff_of_nodup hsound.nodup_held ((nodup_rows t).filter _)).mpr ?_
  intro r
  constructor
  · intro hr
    obtain ⟨k, -, rows, hfile, hmem⟩ := mem_held.mp hr
    obtain ⟨hrow, hdate, -⟩ := hsound.of_mem hfile hmem
    exact List.mem_filter.mpr ⟨hrow, by rw [hdate]; rfl⟩
  · intro hr
    obtain ⟨hrow, hsome⟩ := List.mem_filter.mp hr
    obtain ⟨date, hdate⟩ := Option.isSome_iff_exists.mp hsome
    have hselected : r ∈ selectRows sqlDate t date r.pair := mem_selectRows.mpr ⟨hrow, hdate, rfl⟩
    have hrows := List.ne_nil_of_mem hselected
    -- the partition is listed, and its file is at least as long as the selection
    obtain ⟨hlisted, rows, hfile, hlen⟩ :
        Partition.of date r.pair ∈ (mergeResults d.manifest last.1.results).partitions ∧
        Covers sqlDate t last.1.files (.of date r.pair)
          (selectRows sqlDate t date r.pair).length := by
      rcases hsettled hfinished _ (mem_iterPartitions hrow hdate) hrows with
        ⟨result, hresult, hpartition, hrecords⟩ | ⟨e, he, hrecords⟩
      · refine ⟨mem_mergeResults.1.mpr (.inl ⟨result, hresult, hpartition⟩), ?_⟩
        rw [← hpartition, ← hrecords]
        exact hgoing.exported result hresult
      · refine ⟨mem_mergeResults.1.mpr (.inr ?_), ?_⟩
        · rw [h.listed, ← AList.lookup_isSome, he]
          rfl
        · rw [← hrecords]
          exact hgoing.indexed _ e he
    have howned := hkeys.owned (.of date r.pair)
    have hsub := (hgoing.files _ rows hfile).length_le howned rfl hrows
    have hperm := hsub.perm_of_length_le (hlen howned)
    exact mem_held.mpr ⟨_, hlisted, rows, hfile, hperm.mem_iff.mpr hselected⟩

variable (sqlDate)

/-- An export of everything is lossless, after any insertions and exports, exactly when no two
pairs that are traded on one date have one key. -/
theorem lossless_iff (commands : List Command) (force : Bool) :
    Lossless sqlDate (after sqlDate commands).trades
        (runExport sqlDate (after sqlDate commands).trades (after sqlDate commands).directory
          unfiltered force faultless).2 ↔
      DistinctKeys sqlDate (after sqlDate commands).trades := by
  have hsound := @sound_after sqlDate commands
  constructor
  · intro ⟨hperm, _⟩
    exact (hsound.exported unfiltered force faultless).distinctKeys hperm
  · intro hkeys
    have hperm := hsound.complete hkeys force
    exact ⟨hperm, hperm.trans (sound_empty.complete hkeys true).symm⟩

end Exporter

def firstOfJune (_ : String) : Option Date := some 739768

def usdc : Trade := ⟨"100-0", "2026-06-01T10:00:00+00:00", "XLM", "USDC"⟩

def usdcSmall : Trade := ⟨"101-0", "2026-06-01T11:00:00+00:00", "XLM", "usdc"⟩

/-- The second file replaces the first. -/
theorem not_lossless_two_spellings :
    ¬ Lossless firstOfJune (after firstOfJune [.insert [usdc, usdcSmall]]).trades
      (runExport firstOfJune (after firstOfJune [.insert [usdc, usdcSmall]]).trades
        (after firstOfJune [.insert [usdc, usdcSmall]]).directory unfiltered false
          faultless).2 := by
  intro ⟨hperm, _⟩
  have hsound := @sound_after firstOfJune [.insert [usdc, usdcSmall]]
  have hkeys := (hsound.exported unfiltered false faultless).distinctKeys hperm
  have hpairs := hkeys usdc (by decide +kernel) usdcSmall (by decide +kernel) 739768 rfl rfl
    (by decide +kernel)
  exact absurd hpairs (by decide +kernel)

end ParquetExporter
