import LedgerLens.FallibleRuns
import LedgerLens.SquaredDeviations
import Mathlib.Algebra.Order.Ring.Rat
import Mathlib.Data.List.Forall2
import Mathlib.Data.List.Induction

/-!
# Adaptive windowing

`ADWINDriftDetector` of `detection/drift_detectors.py`, over exact rationals: a window of the latest
values, kept as rows of buckets that are merged two by two as they grow old.
-/
namespace Adwin

open FallibleRuns SquaredDeviations WhileLoops

/-- A count, a sum and a sum of squared deviations. -/
structure Bucket where
  n : ℕ
  total : ℚ
  variance : ℚ
  deriving DecidableEq, Repr

def combineStats (b₁ b₂ : Bucket) : Bucket :=
  let n := b₁.n + b₂.n
  if n = 0 then ⟨0, 0, 0⟩
  else
    let mean1 := if b₁.n = 0 then 0 else b₁.total / b₁.n
    let mean2 := if b₂.n = 0 then 0 else b₂.total / b₂.n
    let delta := mean1 - mean2
    ⟨n, b₁.total + b₂.total, b₁.variance + b₂.variance + delta * delta * b₁.n * b₂.n / n⟩

/-- `popleft` of an empty deque. -/
inductive Error where
  | indexError
  deriving DecidableEq, Repr

/-- `np.log` and `np.sqrt` are those of the library. -/
structure Config where
  delta : ℚ
  maxBucketsPerRow : ℤ
  log : ℚ → ℚ
  sqrt : ℚ → ℚ

structure Detector where
  rows : List (List Bucket)
  width : ℕ
  total : ℚ
  variance : ℚ
  driftDetected : Bool
  nDetections : ℕ
  lastDetectionAt : Option ℕ
  deriving DecidableEq

def Detector.new : Detector where
  rows := [[]]
  width := 0
  total := 0
  variance := 0
  driftDetected := false
  nDetections := 0
  lastDetectionAt := none

def orderedBuckets (rows : List (List Bucket)) : List Bucket := rows.reverse.flatten

/-- A bucket is appended to the first of the rows, which is then compressed: the two oldest of a row
that is too long are merged into one, which is appended to the next row. -/
def appendCompress (maxBuckets : ℤ) (b : Bucket) :
    List (List Bucket) → Except Error (List (List Bucket))
  | [] => if maxBuckets < 1 then .error .indexError else .ok [[b]]
  | row :: rows =>
    if maxBuckets < (row ++ [b]).length then
      match row ++ [b] with
      | b₁ :: b₂ :: row' =>
        (appendCompress maxBuckets (combineStats b₁ b₂) rows).map fun rows' => row' :: rows'
      | _ => .error .indexError
    else .ok ((row ++ [b]) :: rows)

def refold (s : Detector) : Detector :=
  let sums := (orderedBuckets s.rows).foldl combineStats ⟨0, 0, 0⟩
  { s with width := sums.n, total := sums.total, variance := sums.variance }

/-- Infinity where a side is empty. -/
def epsilonCut (cfg : Config) (s : Detector) (n0 n1 : ℤ) : Option ℚ :=
  let n := s.width
  if n ≤ 1 ∨ n0 < 1 ∨ n1 < 1 then none
  else
    let deltaPrime := cfg.delta / max (cfg.log (max n 2 : ℕ)) (1 / 1000000000)
    let m : ℚ := 1 / (1 / n0 + 1 / n1)
    let variance := max (s.variance / n) (1 / 1000000000000)
    let term1 := cfg.sqrt (2 / m * variance * cfg.log (2 / deltaPrime))
    let term2 := 2 / (3 * m) * cfg.log (2 / deltaPrime)
    some (term1 + term2)

/-- The buckets up to the first cut, of which the newest bucket is no part; `passed` are the
statistics of the buckets before. -/
def findCut (cfg : Config) (s : Detector) (count : ℕ) (passed : Bucket) : List Bucket → Option ℕ
  | b :: b' :: buckets =>
    let older := combineStats passed b
    let n0 : ℤ := older.n
    let n1 : ℤ := s.width - n0
    if n0 < 1 ∨ n1 < 1 then findCut cfg s (count + 1) older (b' :: buckets)
    else
      let mean0 := older.total / n0
      let mean1 := (s.total - older.total) / n1
      if ∃ epsilon ∈ epsilonCut cfg s n0 n1, epsilon < |mean0 - mean1| then some (count + 1)
      else findCut cfg s (count + 1) older (b' :: buckets)
  | _ => none

/-- The rows in falling order, without so many of their oldest buckets. -/
def dropFront : ℕ → List (List Bucket) → List (List Bucket)
  | _, [] => []
  | remaining, row :: rows => row.drop remaining :: dropFront (remaining - row.length) rows

def dropOldest (count : ℕ) (rows : List (List Bucket)) : List (List Bucket) :=
  (dropFront count rows.reverse).reverse

/-- `_maybe_cut`: the rows after a cut, where there is one. -/
def maybeCut (cfg : Config) (s : Detector) : Option (List (List Bucket)) :=
  if (s.width : ℤ) < 2 * cfg.maxBucketsPerRow then none
  else (findCut cfg s 0 ⟨0, 0, 0⟩ (orderedBuckets s.rows)).map fun count => dropOldest count s.rows

/-- `self.drift_detected = True; self._refold()`. -/
def afterCut (s : Detector) (rows : List (List Bucket)) : Detector :=
  refold { s with rows := rows, driftDetected := true }

def cutLoop (cfg : Config) : ℕ → Detector → Detector
  | 0, s => s
  | fuel + 1, s =>
    match maybeCut cfg s with
    | some rows => cutLoop cfg fuel (afterCut s rows)
    | none => s

/-- What `update` does before its loop. -/
def insert (cfg : Config) (s : Detector) (value : ℚ) : Except Error Detector :=
  (appendCompress cfg.maxBucketsPerRow ⟨1, value, 0⟩ s.rows).map fun rows =>
    { refold { s with rows := rows } with driftDetected := false }

/-- What `update` does after its loop. -/
def report (s : Detector) : Detector :=
  if s.driftDetected then
    { s with nDetections := s.nDetections + 1, lastDetectionAt := some s.width }
  else s

/-- `update`, with as many cuts as there are buckets. -/
def update (cfg : Config) (s : Detector) (value : ℚ) : Except Error Detector :=
  (insert cfg s value).map fun s => report (cutLoop cfg (orderedBuckets s.rows).length s)

def feed (cfg : Config) (stream : List ℚ) : Except Error Detector :=
  stream.foldlM (update cfg) .new

/-- The loop of the cuts as in the source, with no bound on its passes. -/
def CutLoop (cfg : Config) : Detector → Detector → Prop :=
  While (fun s => maybeCut cfg s ≠ none)
    fun s t => ∃ rows, maybeCut cfg s = some rows ∧ t = afterCut s rows

def Updates (cfg : Config) (s : Detector) (value : ℚ) (t : Detector) : Prop :=
  ∃ inserted cut, insert cfg s value = .ok inserted ∧ CutLoop cfg inserted cut ∧ t = report cut

inductive Feeds (cfg : Config) : List ℚ → Detector → Prop where
  | nil : Feeds cfg [] .new
  | snoc {stream : List ℚ} {s t : Detector} {value : ℚ} :
    Feeds cfg stream s → Updates cfg s value t → Feeds cfg (stream ++ [value]) t

structure Holds (b : Bucket) (l : List ℚ) : Prop where
  count : b.n = l.length
  total : b.total = l.sum
  variance : b.variance = deviations l

section

variable {cfg : Config} {s t : Detector} {b b₁ b₂ : Bucket} {l l₁ l₂ : List ℚ}
  {rows rows' : List (List Bucket)} {segments : List (List ℚ)} {maxBuckets : ℤ}

theorem Holds.nil : Holds ⟨0, 0, 0⟩ [] := ⟨rfl, rfl, rfl⟩

theorem Holds.singleton (value : ℚ) : Holds ⟨1, value, 0⟩ [value] :=
  ⟨rfl, (List.sum_singleton).symm, (deviations_singleton value).symm⟩

theorem Holds.mean (h : Holds b l) : (if b.n = 0 then 0 else b.total / b.n) = mean l := by
  split_ifs with hn
  · rw [h.count] at hn
    rw [List.length_eq_zero_iff.mp hn, mean_nil]
  · rw [SquaredDeviations.mean, h.total, h.count]

theorem Holds.combine (h₁ : Holds b₁ l₁) (h₂ : Holds b₂ l₂) :
    Holds (combineStats b₁ b₂) (l₁ ++ l₂) := by
  unfold combineStats
  simp only [h₁.mean, h₂.mean]
  split_ifs with hn
  · rw [h₁.count, h₂.count, Nat.add_eq_zero_iff, List.length_eq_zero_iff,
      List.length_eq_zero_iff] at hn
    rw [hn.1, hn.2]
    exact .nil
  · constructor
    · rw [List.length_append, h₁.count, h₂.count]
    · rw [List.sum_append, h₁.total, h₂.total]
    · rw [deviations_append, h₁.variance, h₂.variance, h₁.count, h₂.count, Nat.cast_add, sq]

theorem holds_foldl {buckets : List Bucket} (h : Holds b l)
    (hsegments : List.Forall₂ Holds buckets segments) :
    Holds (buckets.foldl combineStats b) (l ++ segments.flatten) := by
  induction hsegments generalizing b l with
  | nil => simpa using h
  | cons hhead _ ih =>
    rw [List.foldl_cons, List.flatten_cons, ← List.append_assoc]
    exact ih (h.combine hhead)

theorem refold_holds (hsegments : List.Forall₂ Holds (orderedBuckets s.rows) segments) :
    Holds ⟨(refold s).width, (refold s).total, (refold s).variance⟩ segments.flatten :=
  holds_foldl .nil hsegments

theorem orderedBuckets_cons (row : List Bucket) (rows : List (List Bucket)) :
    orderedBuckets (row :: rows) = orderedBuckets rows ++ row := by
  rw [orderedBuckets, List.reverse_cons, List.flatten_concat]
  rfl

theorem appendCompress_cons {row : List Bucket}
    (h : appendCompress maxBuckets b (row :: rows) = .ok rows') :
    (row ++ [b]).length ≤ maxBuckets ∧ rows' = (row ++ [b]) :: rows ∨
      ∃ b₁ b₂ row' rest, maxBuckets < (row ++ [b]).length ∧ row ++ [b] = b₁ :: b₂ :: row' ∧
        appendCompress maxBuckets (combineStats b₁ b₂) rows = .ok rest ∧ rows' = row' :: rest := by
  rw [appendCompress] at h
  split_ifs at h with hlong
  · split at h
    · rename_i b₁ b₂ row' hbuckets
      cases hrest : appendCompress maxBuckets (combineStats b₁ b₂) rows with
      | error e =>
        rw [hrest] at h
        cases h
      | ok rest =>
        rw [hrest] at h
        exact .inr ⟨b₁, b₂, row', rest, hlong, hbuckets, hrest, (Except.ok.inj h).symm⟩
    · cases h
  · exact .inl ⟨not_lt.mp hlong, (Except.ok.inj h).symm⟩

theorem forall₂_split {buckets buckets' : List Bucket}
    (h : List.Forall₂ Holds (buckets ++ buckets') segments) :
    ∃ older newer, segments = older ++ newer ∧ List.Forall₂ Holds buckets older ∧
      List.Forall₂ Holds buckets' newer := by
  have holder := List.forall₂_take buckets.length h
  have hnewer := List.forall₂_drop buckets.length h
  rw [List.take_left] at holder
  rw [List.drop_left] at hnewer
  exact ⟨_, _, (List.take_append_drop _ _).symm, holder, hnewer⟩

/-- The new bucket comes last, and merges join neighbouring segments. -/
theorem appendCompress_holds (h : appendCompress maxBuckets b rows = .ok rows') (hb : Holds b l)
    (hsegments : List.Forall₂ Holds (orderedBuckets rows) segments) :
    ∃ segments', List.Forall₂ Holds (orderedBuckets rows') segments' ∧
      segments'.flatten = segments.flatten ++ l := by
  induction rows generalizing b l segments rows' with
  | nil =>
    rw [appendCompress] at h
    split_ifs at h
    obtain rfl := Except.ok.inj h
    cases hsegments
    exact ⟨[l], .cons hb .nil, by simp⟩
  | cons row rows ih =>
    rw [orderedBuckets_cons] at hsegments
    obtain ⟨older, newer, rfl, holder, hnewer⟩ := forall₂_split hsegments
    have hrow : List.Forall₂ Holds (row ++ [b]) (newer ++ [l]) :=
      List.rel_append hnewer (.cons hb .nil)
    rcases appendCompress_cons h with ⟨-, rfl⟩ | ⟨b₁, b₂, row', rest, -, hbuckets, hrest, rfl⟩
    · exact ⟨older ++ (newer ++ [l]), orderedBuckets_cons _ _ ▸ List.rel_append holder hrow,
        by simp⟩
    · rw [hbuckets] at hrow
      generalize hlists : newer ++ [l] = lists at hrow
      cases hrow with
      | @cons _ l₁ _ _ hfirst htail =>
        cases htail with
        | @cons _ l₂ _ lists' hsecond htail =>
          obtain ⟨merged, hmerged, hflatten⟩ := ih hrest (hfirst.combine hsecond) holder
          refine ⟨merged ++ lists', orderedBuckets_cons _ _ ▸ List.rel_append hmerged htail, ?_⟩
          have hnewer : newer.flatten ++ l = l₁ ++ (l₂ ++ lists'.flatten) := by
            simpa using congrArg List.flatten hlists
          rw [List.flatten_append, hflatten, List.flatten_append, List.append_assoc,
            List.append_assoc, List.append_assoc, hnewer]

/-- From the given row on, a row has no more buckets than it may, and those of the `i`-th row have
`2 ^ i` elements. -/
def Sized (maxBuckets : ℤ) : ℕ → List (List Bucket) → Prop
  | _, [] => True
  | i, row :: rows =>
    ((row.length : ℤ) ≤ maxBuckets ∧ ∀ b ∈ row, b.n = 2 ^ i) ∧ Sized maxBuckets (i + 1) rows

theorem combineStats_n (b₁ b₂ : Bucket) : (combineStats b₁ b₂).n = b₁.n + b₂.n := by
  by_cases hn : b₁.n + b₂.n = 0
  · rw [combineStats, if_pos hn, hn]
  · rw [combineStats, if_neg hn]

theorem appendCompress_sized {i : ℕ} (h : appendCompress maxBuckets b rows = .ok rows')
    (hb : b.n = 2 ^ i) (hrows : Sized maxBuckets i rows) : Sized maxBuckets i rows' := by
  induction rows generalizing b i rows' with
  | nil =>
    rw [appendCompress] at h
    split_ifs at h with hmax
    obtain rfl := Except.ok.inj h
    refine ⟨⟨not_lt.mp hmax, fun b' hb' => ?_⟩, trivial⟩
    rw [List.mem_singleton.mp hb', hb]
  | cons row rows ih =>
    obtain ⟨⟨hlength, hcounts⟩, hrest⟩ := hrows
    have hcounts' : ∀ b' ∈ row ++ [b], b'.n = 2 ^ i := by
      intro b' hb'
      rcases List.mem_append.mp hb' with hb' | hb'
      · exact hcounts b' hb'
      · rw [List.mem_singleton.mp hb', hb]
    rcases appendCompress_cons h with ⟨hshort, rfl⟩ | ⟨b₁, b₂, row', rest, -, hbuckets, hmerge, rfl⟩
    · exact ⟨⟨hshort, hcounts'⟩, hrest⟩
    · rw [hbuckets] at hcounts'
      have hlengths := congrArg List.length hbuckets
      refine ⟨⟨?_, fun b' hb' => ?_⟩, ih hmerge ?_ hrest⟩
      · simp only [List.length_append, List.length_cons, List.length_nil] at hlengths
        omega
      · exact hcounts' b' (List.mem_cons_of_mem _ (List.mem_cons_of_mem _ hb'))
      · rw [combineStats_n, hcounts' b₁ List.mem_cons_self,
          hcounts' b₂ (List.mem_cons_of_mem _ List.mem_cons_self), pow_succ, mul_two]

theorem appendCompress_returns (hmax : 1 ≤ maxBuckets) (b : Bucket) (rows : List (List Bucket)) :
    ∃ rows', appendCompress maxBuckets b rows = .ok rows' := by
  induction rows generalizing b with
  | nil => exact ⟨_, if_neg (not_lt.mpr hmax)⟩
  | cons row rows ih =>
    rw [appendCompress]
    split_ifs with hlong
    · cases hbuckets : row ++ [b] with
      | nil => simp at hbuckets
      | cons b₁ buckets =>
        cases buckets with
        | nil =>
          rw [hbuckets, List.length_singleton] at hlong
          omega
        | cons b₂ row' =>
          obtain ⟨rest, hrest⟩ := ih (combineStats b₁ b₂)
          exact ⟨row' :: rest, by simp only [hrest, Except.map]⟩
    · exact ⟨_, rfl⟩

theorem Sized.getElem? {i k : ℕ} {row : List Bucket} (h : Sized maxBuckets i rows)
    (hrow : rows[k]? = some row) :
    (row.length : ℤ) ≤ maxBuckets ∧ ∀ b ∈ row, b.n = 2 ^ (i + k) := by
  induction rows generalizing i k with
  | nil => cases hrow
  | cons row' rows ih =>
    cases k with
    | zero => exact Option.some.inj hrow ▸ h.1
    | succ k =>
      rw [List.getElem?_cons_succ] at hrow
      rw [← Nat.succ_add_eq_add_succ]
      exact ih h.2 hrow

theorem dropFront_flatten (remaining : ℕ) (rows : List (List Bucket)) :
    (dropFront remaining rows).flatten = rows.flatten.drop remaining := by
  induction rows generalizing remaining with
  | nil => simp [dropFront]
  | cons row rows ih =>
    rw [dropFront, List.flatten_cons, List.flatten_cons, List.drop_append, ih]

theorem orderedBuckets_dropOldest (count : ℕ) (rows : List (List Bucket)) :
    orderedBuckets (dropOldest count rows) = (orderedBuckets rows).drop count := by
  rw [orderedBuckets, dropOldest, List.reverse_reverse, dropFront_flatten]
  rfl

theorem dropFront_sublists (remaining : ℕ) (rows : List (List Bucket)) :
    List.Forall₂ List.Sublist (dropFront remaining rows) rows := by
  induction rows generalizing remaining with
  | nil => exact .nil
  | cons row rows ih => exact .cons (List.drop_sublist _ _) (ih _)

theorem Sized.sublists {i : ℕ} (h : Sized maxBuckets i rows)
    (hsub : List.Forall₂ List.Sublist rows' rows) : Sized maxBuckets i rows' := by
  induction hsub generalizing i with
  | nil => exact trivial
  | cons hrow _ ih =>
    obtain ⟨⟨hlength, hcounts⟩, hrest⟩ := h
    refine ⟨⟨?_, fun b hb => hcounts b (hrow.subset hb)⟩, ih hrest⟩
    have := hrow.length_le
    omega

theorem Sized.dropOldest {i : ℕ} (h : Sized maxBuckets i rows) (count : ℕ) :
    Sized maxBuckets i (dropOldest count rows) := by
  have hsub := (List.forall₂_reverse_iff).mpr (dropFront_sublists count rows.reverse)
  rw [List.reverse_reverse] at hsub
  exact h.sublists hsub

theorem findCut_bounds {count cut : ℕ} {passed : Bucket} {buckets : List Bucket}
    (h : findCut cfg s count passed buckets = some cut) :
    count < cut ∧ cut < count + buckets.length := by
  induction buckets generalizing count passed with
  | nil => cases h
  | cons b buckets ih =>
    cases buckets with
    | nil => cases h
    | cons b' buckets =>
      simp only [findCut] at h
      rw [List.length_cons]
      split_ifs at h
      · have := ih h
        omega
      · obtain rfl := Option.some.inj h
        rw [List.length_cons]
        omega
      · have := ih h
        omega

theorem maybeCut_eq_some (h : maybeCut cfg s = some rows) :
    ∃ count, 0 < count ∧ count < (orderedBuckets s.rows).length ∧
      rows = dropOldest count s.rows := by
  unfold maybeCut at h
  split_ifs at h
  obtain ⟨count, hcut, rfl⟩ := Option.map_eq_some_iff.mp h
  have hbounds := findCut_bounds hcut
  exact ⟨count, hbounds.1, by omega, rfl⟩

theorem afterCut_rows : (afterCut s rows).rows = rows := rfl

theorem cutLoop_spec {fuel : ℕ} (hfuel : (orderedBuckets s.rows).length ≤ fuel) :
    CutLoop cfg s (cutLoop cfg fuel s) := by
  induction fuel generalizing s with
  | zero =>
    refine .stop (not_not.mpr ?_)
    cases hcut : maybeCut cfg s with
    | none => rfl
    | some rows =>
      obtain ⟨count, -, hlt, -⟩ := maybeCut_eq_some hcut
      omega
  | succ fuel ih =>
    rw [cutLoop]
    cases hcut : maybeCut cfg s with
    | none => exact .stop (not_not.mpr hcut)
    | some rows =>
      refine .pass (by rw [hcut]; nofun) ⟨rows, hcut, rfl⟩ (ih ?_)
      obtain ⟨count, hpos, hlt, rfl⟩ := maybeCut_eq_some hcut
      rw [afterCut_rows, orderedBuckets_dropOldest, List.length_drop]
      omega

/-- The buckets hold segments of a suffix of the stream, and the sums of the detector are those of
the suffix. -/
structure Window (cfg : Config) (stream : List ℚ) (s : Detector) : Prop where
  segments : ∃ segments, List.Forall₂ Holds (orderedBuckets s.rows) segments ∧
    segments.flatten <:+ stream ∧ Holds ⟨s.width, s.total, s.variance⟩ segments.flatten
  sized : Sized cfg.maxBucketsPerRow 0 s.rows

variable {stream : List ℚ} {value : ℚ}

theorem Window.new (hmax : 1 ≤ cfg.maxBucketsPerRow) : Window cfg [] .new where
  segments := ⟨[], .nil, List.suffix_rfl, .nil⟩
  sized := ⟨⟨zero_le_one.trans hmax, nofun⟩, trivial⟩

theorem Window.insert (h : Window cfg stream s) (hinsert : insert cfg s value = .ok t) :
    Window cfg (stream ++ [value]) t := by
  obtain ⟨segments, hsegments, hsuffix, -⟩ := h.segments
  unfold Adwin.insert at hinsert
  cases happend : appendCompress cfg.maxBucketsPerRow ⟨1, value, 0⟩ s.rows with
  | error e =>
    rw [happend] at hinsert
    cases hinsert
  | ok rows =>
    rw [happend] at hinsert
    obtain rfl := Except.ok.inj hinsert
    obtain ⟨segments', hsegments', hflatten⟩ :=
      appendCompress_holds happend (.singleton value) hsegments
    refine ⟨⟨segments', hsegments', ?_, refold_holds hsegments'⟩,
      appendCompress_sized happend rfl h.sized⟩
    obtain ⟨older, rfl⟩ := hsuffix
    exact ⟨older, by rw [hflatten, List.append_assoc]⟩

theorem Window.afterCut (h : Window cfg stream s) (hcut : maybeCut cfg s = some rows) :
    Window cfg stream (afterCut s rows) := by
  obtain ⟨segments, hsegments, hsuffix, -⟩ := h.segments
  obtain ⟨count, -, -, rfl⟩ := maybeCut_eq_some hcut
  have hrest : List.Forall₂ Holds (orderedBuckets (Adwin.dropOldest count s.rows))
      (segments.drop count) :=
    orderedBuckets_dropOldest count s.rows ▸ List.forall₂_drop count hsegments
  refine ⟨⟨segments.drop count, hrest, ?_, refold_holds hrest⟩, h.sized.dropOldest count⟩
  have hsplit : segments.flatten =
      (segments.take count).flatten ++ (segments.drop count).flatten := by
    rw [← List.flatten_append, List.take_append_drop]
  exact (hsplit ▸ List.suffix_append _ _).trans hsuffix

theorem Window.cutLoop (h : Window cfg stream s) (hloop : CutLoop cfg s t) :
    Window cfg stream t := by
  induction hloop with
  | stop => exact h
  | pass _ hpass _ ih =>
    obtain ⟨rows, hcut, rfl⟩ := hpass
    exact ih (h.afterCut hcut)

theorem Window.report (h : Window cfg stream s) : Window cfg stream (report s) := by
  unfold Adwin.report
  split_ifs
  · exact ⟨h.segments, h.sized⟩
  · exact h

theorem Window.update (h : Window cfg stream s) (hupdate : Updates cfg s value t) :
    Window cfg (stream ++ [value]) t := by
  obtain ⟨inserted, cut, hinsert, hloop, rfl⟩ := hupdate
  exact ((h.insert hinsert).cutLoop hloop).report

theorem Updates.one_le (h : Updates cfg .new value t) : 1 ≤ cfg.maxBucketsPerRow := by
  obtain ⟨inserted, -, hinsert, -⟩ := h
  by_contra hmax
  have hlong : cfg.maxBucketsPerRow < (([] ++ [⟨1, value, 0⟩] : List Bucket).length : ℤ) := by
    simp only [List.nil_append, List.length_singleton]
    omega
  rw [insert, Detector.new, appendCompress, if_pos hlong] at hinsert
  cases hinsert

theorem Feeds.one_le (h : Feeds cfg stream s) (hne : stream ≠ []) : 1 ≤ cfg.maxBucketsPerRow := by
  induction h with
  | nil => exact absurd rfl hne
  | @snoc stream _ _ _ hfeeds hupdate ih =>
    cases hfeeds with
    | nil => exact hupdate.one_le
    | snoc => exact ih (by simp)

theorem Feeds.window (h : Feeds cfg stream s) (hmax : 1 ≤ cfg.maxBucketsPerRow) :
    Window cfg stream s := by
  induction h with
  | nil => exact .new hmax
  | snoc _ hupdate ih => exact ih.update hupdate

theorem updates_update (h : update cfg s value = .ok t) : Updates cfg s value t := by
  unfold update at h
  cases hinsert : insert cfg s value with
  | error e =>
    rw [hinsert] at h
    cases h
  | ok inserted =>
    rw [hinsert] at h
    obtain rfl := Except.ok.inj h
    exact ⟨inserted, _, hinsert, cutLoop_spec le_rfl, rfl⟩

theorem updates_iff : Updates cfg s value t ↔ update cfg s value = .ok t := by
  refine ⟨?_, updates_update⟩
  intro h
  obtain ⟨inserted, cut, hinsert, hloop, rfl⟩ := h
  have hcut : cut = cutLoop cfg (orderedBuckets inserted.rows).length inserted := by
    refine hloop.unique (fun s t u htu hus => ?_) (cutLoop_spec le_rfl)
    obtain ⟨rows, hrows, rfl⟩ := htu
    obtain ⟨rows', hrows', rfl⟩ := hus
    rw [Option.some.inj (hrows.symm.trans hrows')]
  rw [update, hinsert, hcut]
  rfl

theorem feeds_iff : Feeds cfg stream s ↔ feed cfg stream = .ok s := by
  constructor
  · intro h
    induction h with
    | nil => rfl
    | snoc _ hupdate ih =>
      rw [feed] at ih
      rw [feed, List.foldlM_append, ih]
      refine bind_eq_ok.mpr ⟨_, rfl, ?_⟩
      rw [List.foldlM_cons, updates_iff.mp hupdate]
      rfl
  · intro h
    induction stream using List.reverseRecOn generalizing s with
    | nil => exact Except.ok.inj h ▸ .nil
    | append_singleton stream value ih =>
      rw [feed, List.foldlM_append] at h
      obtain ⟨s', hs', hlast⟩ := bind_eq_ok.mp h
      exact (ih hs').snoc (updates_iff.mpr (by simpa using hlast))

theorem update_returns (hmax : 1 ≤ cfg.maxBucketsPerRow) (s : Detector) (value : ℚ) :
    ∃ t, Updates cfg s value t := by
  obtain ⟨rows, hrows⟩ := appendCompress_returns hmax ⟨1, value, 0⟩ s.rows
  exact ⟨_, updates_update (by rw [update, insert, hrows]; rfl)⟩

end

/-- What a detector is after each update: its buckets, from the oldest to the newest, hold
consecutive segments of a suffix of the stream, the buckets of row `i` have `2 ^ i` elements and are
no more than a row may have, and the width is the number of elements. -/
structure WindowInvariant (cfg : Config) (stream : List ℚ) (s : Detector) : Prop where
  segments : ∃ segments, List.Forall₂ Holds (orderedBuckets s.rows) segments ∧
    segments.flatten <:+ stream
  rows : ∀ i row, s.rows[i]? = some row →
    (row.length : ℤ) ≤ cfg.maxBucketsPerRow ∧ ∀ b ∈ row, b.n = 2 ^ i
  width : s.width = ((orderedBuckets s.rows).map Bucket.n).sum

theorem Window.windowInvariant {cfg : Config} {stream : List ℚ} {s : Detector}
    (h : Window cfg stream s) : WindowInvariant cfg stream s := by
  obtain ⟨segments, hsegments, hsuffix, hsums⟩ := h.segments
  refine ⟨⟨segments, hsegments, hsuffix⟩, fun i row hrow => ?_, ?_⟩
  · simpa using h.sized.getElem? hrow
  · have hcounts : (orderedBuckets s.rows).map Bucket.n = segments.map List.length := by
      rw [← List.forall₂_eq_eq_eq, List.forall₂_map_left_iff, List.forall₂_map_right_iff]
      exact hsegments.imp fun _ _ hb => hb.count
    rw [hcounts, ← List.length_flatten]
    exact hsums.count

/-- The loop of the cuts ends on every detector, an update returns where a row may have a bucket,
and after each update that returns the window is exact. -/
theorem window_spec (cfg : Config) :
    (∀ s, ∃ t, CutLoop cfg s t) ∧
    (1 ≤ cfg.maxBucketsPerRow → ∀ s value, ∃ t, Updates cfg s value t) ∧
    ∀ stream s value t, Feeds cfg stream s → Updates cfg s value t →
      WindowInvariant cfg (stream ++ [value]) t := by
  refine ⟨fun s => ⟨_, cutLoop_spec le_rfl⟩, update_returns, ?_⟩
  intro stream s value t hfeeds hupdate
  have hfeeds' := hfeeds.snoc hupdate
  exact (hfeeds'.window (hfeeds'.one_le (by simp))).windowInvariant

/-- Four equal values are cut off by two others. -/
example : (feed ⟨1 / 2, 1, fun _ => 1, fun _ => 0⟩ [1, 1, 1, 1, 9, 9]).map Detector.rows =
    .ok [[], [⟨2, 18, 0⟩], []] := by
  decide +kernel

end Adwin
