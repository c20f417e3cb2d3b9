import LedgerLens.LabelledRuns
import LedgerLens.SqlTables
import Mathlib.Algebra.Order.Field.Rat
import Mathlib.Algebra.Order.Ring.Abs

/-!
# Canary runs

The shadow scores and canary runs of `detection/shadow_scoring.py`. Times are microseconds of UTC,
in whose order the stored ISO texts are compared, and numbers are exact.
-/
namespace CanaryRuns

open LabelledRuns SqlTables

structure ShadowScore where
  id : ℕ
  wallet : String
  assetPair : String
  productionScore : ℚ
  shadowScore : ℚ
  divergence : ℚ
  shadowModelVersion : String
  scoredAt : ℤ
  deriving DecidableEq

inductive Status where
  | running
  | passed
  | rolledBack
  deriving DecidableEq, Repr

structure CanaryRun where
  id : ℕ
  candidateVersion : String
  productionVersion : String
  startedAt : ℤ
  endedAt : Option ℤ := none
  status : Status
  totalComparisons : ℕ := 0
  meanDivergence : ℚ := 0
  alertRateDivergence : ℚ := 0
  threshold : ℚ
  rollbackReason : Option String := none
  deriving DecidableEq

structure Database where
  shadowScores : IdTable ShadowScore ShadowScore.id
  canaryRuns : IdTable CanaryRun CanaryRun.id
  deriving DecidableEq

def Database.empty : Database := ⟨.empty, .empty⟩

/-- The threshold of the environment, and how numbers are rounded to four places and written. -/
structure Config where
  canaryDivergenceThreshold : ℚ
  round4 : ℚ → ℚ
  str : ℚ → String
  fixed4 : ℚ → String

structure CanaryResult where
  canaryId : ℕ
  candidateVersion : String
  productionVersion : String
  status : Status
  totalComparisons : ℕ
  meanDivergence : ℚ
  alertRateDivergence : ℚ
  threshold : ℚ
  rollbackReason : Option String
  deriving DecidableEq

def storeShadowScore (db : Database) (wallet assetPair : String)
    (productionScore shadowScore : ℚ) (shadowModelVersion : String) (now : ℤ) : Database × ℚ :=
  let divergence := |productionScore - shadowScore|
  let shadowScores := db.shadowScores.insert (fun id =>
    { id, wallet, assetPair, productionScore, shadowScore, divergence, shadowModelVersion,
      scoredAt := now }) fun _ => rfl
  ({ db with shadowScores }, divergence)

/-- `AVG` over a column. -/
def average (column : List ℚ) : Option ℚ :=
  if column = [] then none else some (column.sum / column.length)

section Functions

variable (cfg : Config)

def startCanary (db : Database) (candidateVersion productionVersion : String)
    (threshold : Option ℚ) (now : ℤ) : Database × ℕ :=
  let canaryRuns := db.canaryRuns.insert (fun id =>
    { id, candidateVersion, productionVersion, startedAt := now, status := .running,
      threshold := threshold.getD cfg.canaryDivergenceThreshold }) fun _ => rfl
  ({ db with canaryRuns }, canaryRuns.sequence)

def evaluateCanary (db : Database) (canaryId : ℕ) (alertRateDivergence : ℚ) (now : ℤ) :
    Except String (Database × CanaryResult) :=
  match db.canaryRuns.find? canaryId with
  | none => .error s!"Unknown canary run: {canaryId}"
  | some run =>
    let total := db.shadowScores.rows.length
    let meanDiv := (average (db.shadowScores.rows.map ShadowScore.divergence)).getD 0
    let exceeded := run.threshold < meanDiv ∨ run.threshold < alertRateDivergence
    let status : Status := if exceeded then .rolledBack else .passed
    let rollbackReason :=
      if exceeded then
        some ("divergence exceeded threshold " ++ cfg.str run.threshold ++
          ": mean_score_divergence=" ++ cfg.fixed4 meanDiv ++ ", alert_rate_divergence=" ++
          cfg.fixed4 alertRateDivergence)
      else none
    let canaryRuns := db.canaryRuns.update (fun r => r.id = canaryId) (fun r =>
      { r with
        endedAt := some now
        status := status
        totalComparisons := total
        meanDivergence := meanDiv
        alertRateDivergence := alertRateDivergence
        rollbackReason := rollbackReason }) fun _ => rfl
    .ok ({ db with canaryRuns },
      { canaryId := canaryId
        candidateVersion := run.candidateVersion
        productionVersion := run.productionVersion
        status := status
        totalComparisons := total
        meanDivergence := cfg.round4 meanDiv
        alertRateDivergence := cfg.round4 alertRateDivergence
        threshold := run.threshold
        rollbackReason := rollbackReason })

end Functions

inductive Request where
  | storeShadowScore (wallet assetPair : String) (productionScore shadowScore : ℚ)
      (shadowModelVersion : String)
  | startCanary (candidateVersion productionVersion : String) (threshold : Option ℚ)
  | evaluateCanary (canaryId : ℕ) (alertRateDivergence : ℚ)
  deriving DecidableEq

structure Call where
  request : Request
  now : ℤ
  deriving DecidableEq

section Calls

variable (cfg : Config)

/-- A call that raises leaves the database as it is. -/
def next (db : Database) (c : Call) : Database :=
  match c.request with
  | .storeShadowScore wallet assetPair productionScore shadowScore version =>
    (storeShadowScore db wallet assetPair productionScore shadowScore version c.now).1
  | .startCanary candidate production threshold =>
    (startCanary cfg db candidate production threshold c.now).1
  | .evaluateCanary canaryId alertRate =>
    match evaluateCanary cfg db canaryId alertRate c.now with
    | .ok (db, _) => db
    | .error _ => db

def verdict (db : Database) (canaryId : ℕ) (alertRate : ℚ) (now : ℤ) : Option (Status × ℕ) :=
  match evaluateCanary cfg db canaryId alertRate now with
  | .ok (_, result) => some (result.status, result.totalComparisons)
  | .error _ => none

def Own (run : CanaryRun) (row : ShadowScore) : Prop :=
  row.shadowModelVersion = run.candidateVersion ∧ run.startedAt ≤ row.scoredAt

instance (run : CanaryRun) (row : ShadowScore) : Decidable (Own run row) :=
  inferInstanceAs (Decidable (_ ∧ _))

def ownRows (run : CanaryRun) (db : Database) : List ShadowScore :=
  db.shadowScores.rows.filter fun row => Own run row

/-- No comparison in the table is one of another candidate or from before the run. -/
def Unmixed (run : CanaryRun) (db : Database) : Prop := ∀ row ∈ db.shadowScores.rows, Own run row

def ShadowScore.anonymous (row : ShadowScore) : ShadowScore := { row with id := 0 }

/-- Both databases hold the run and the same comparisons of it. -/
structure Agree (run : CanaryRun) (db db' : Database) : Prop where
  run_mem : db.canaryRuns.find? run.id = some run
  run_mem' : db'.canaryRuns.find? run.id = some run
  rows : (ownRows run db).map ShadowScore.anonymous = (ownRows run db').map ShadowScore.anonymous

def Exceeds (run : CanaryRun) (rows : List ShadowScore) (alertRate : ℚ) : Prop :=
  run.threshold < (average (rows.map ShadowScore.divergence)).getD 0 ∨ run.threshold < alertRate

instance (run : CanaryRun) (rows : List ShadowScore) (alertRate : ℚ) :
    Decidable (Exceeds run rows alertRate) :=
  inferInstanceAs (Decidable (_ ∨ _))

def OwnVerdict (db : Database) (canaryId : ℕ) (alertRate : ℚ) (now : ℤ) : Prop :=
  ∀ run db', run.id = canaryId → Agree run db db' → Unmixed run db' →
    verdict cfg db' canaryId alertRate now = verdict cfg db canaryId alertRate now

/-- An evaluation finds comparisons of its run only, and one of a run that was rolled back finds a
divergence above the threshold. -/
def Separate (db : Database) (c : Call) : Prop :=
  match c.request with
  | .evaluateCanary canaryId alertRate => ∀ run, db.canaryRuns.find? canaryId = some run →
      Unmixed run db ∧ (run.status = .rolledBack → Exceeds run db.shadowScores.rows alertRate)
  | _ => True

structure Trustworthy (db : Database) (calls : List Call) : Prop where
  own : ∀ before canaryId alertRate now after,
    calls = before ++ ⟨.evaluateCanary canaryId alertRate, now⟩ :: after →
      OwnVerdict cfg (before.foldl (next cfg) db) canaryId alertRate now
  terminal : ∀ before later after, calls = before ++ later ++ after →
    ∀ run ∈ (before.foldl (next cfg) db).canaryRuns.rows, run.status = .rolledBack →
      ∀ run' ∈ ((before ++ later).foldl (next cfg) db).canaryRuns.rows, run'.id = run.id →
        run'.status ≠ .passed

variable {cfg}

theorem verdict_eq {db : Database} {canaryId : ℕ} {run : CanaryRun}
    (hrun : db.canaryRuns.find? canaryId = some run) (alertRate : ℚ) (now : ℤ) :
    verdict cfg db canaryId alertRate now =
      some (if Exceeds run db.shadowScores.rows alertRate then .rolledBack else .passed,
        db.shadowScores.rows.length) := by
  rw [verdict, evaluateCanary, hrun]
  rfl

theorem ownRows_of_unmixed {run : CanaryRun} {db : Database} (h : Unmixed run db) :
    ownRows run db = db.shadowScores.rows :=
  List.filter_eq_self.mpr fun row hrow => decide_eq_true (h row hrow)

theorem verdict_eq_of_agree {run : CanaryRun} {db db' : Database} (hagree : Agree run db db')
    (hdb : Unmixed run db) (hdb' : Unmixed run db') (alertRate : ℚ) (now : ℤ) :
    verdict cfg db run.id alertRate now = verdict cfg db' run.id alertRate now := by
  have hrows := hagree.rows
  rw [ownRows_of_unmixed hdb, ownRows_of_unmixed hdb'] at hrows
  have hlength : db.shadowScores.rows.length = db'.shadowScores.rows.length := by
    simpa using congrArg List.length hrows
  have hdivergence : db.shadowScores.rows.map ShadowScore.divergence =
      db'.shadowScores.rows.map ShadowScore.divergence := by
    have hmap := congrArg (List.map ShadowScore.divergence) hrows
    rwa [List.map_map, List.map_map] at hmap
  have hexceeds : Exceeds run db.shadowScores.rows alertRate ↔
      Exceeds run db'.shadowScores.rows alertRate := by
    rw [Exceeds, Exceeds, hdivergence]
  rw [verdict_eq hagree.run_mem, verdict_eq hagree.run_mem', hlength]
  simp only [hexceeds]

theorem exists_other_verdict {run : CanaryRun} {db : Database}
    (hrun : db.canaryRuns.find? run.id = some run) (alertRate : ℚ) (now : ℤ) :
    ∃ db', Agree run db db' ∧
      verdict cfg db' run.id alertRate now ≠ verdict cfg db run.id alertRate now := by
  let version := run.candidateVersion ++ "+"
  have hversion : version ≠ run.candidateVersion := fun h => by
    have hlength := congrArg String.length h
    simp [version] at hlength
  refine ⟨(storeShadowScore db "" "" 0 0 version now).1, ⟨hrun, hrun, ?_⟩, fun hsame => ?_⟩
  · rw [ownRows, ownRows, storeShadowScore, IdTable.rows_insert, List.filter_append,
      List.filter_singleton, decide_eq_false fun h => hversion h.1]
    simp
  · have hrun' : (storeShadowScore db "" "" 0 0 version now).1.canaryRuns.find? run.id = some run :=
      hrun
    rw [verdict_eq hrun', verdict_eq hrun] at hsame
    have hlength := congrArg Prod.snd (Option.some.inj hsame)
    simp [storeShadowScore] at hlength

def restrict (run : CanaryRun) (db : Database) : Database :=
  { db with shadowScores := db.shadowScores.delete fun row => ¬ Own run row }

theorem rows_restrict (run : CanaryRun) (db : Database) :
    (restrict run db).shadowScores.rows = ownRows run db := by
  rw [restrict, IdTable.rows_delete, ownRows]
  exact List.filter_congr fun row _ => decide_eq_decide.mpr not_not

theorem unmixed_restrict (run : CanaryRun) (db : Database) : Unmixed run (restrict run db) := by
  intro row hrow
  rw [rows_restrict] at hrow
  exact of_decide_eq_true (List.mem_filter.mp hrow).2

theorem agree_restrict {run : CanaryRun} {db : Database}
    (hrun : db.canaryRuns.find? run.id = some run) : Agree run db (restrict run db) where
  run_mem := hrun
  run_mem' := hrun
  rows := by rw [ownRows_of_unmixed (unmixed_restrict run db), rows_restrict]

theorem ownVerdict_iff {db : Database} {canaryId : ℕ} {run : CanaryRun}
    (hrun : db.canaryRuns.find? canaryId = some run) (alertRate : ℚ) (now : ℤ) :
    OwnVerdict cfg db canaryId alertRate now ↔ Unmixed run db := by
  obtain rfl : run.id = canaryId := (IdTable.find?_eq_some.mp hrun).2
  constructor
  · intro hown row hrow
    have hsame := hown run (restrict run db) rfl (agree_restrict hrun) (unmixed_restrict run db)
    rw [verdict_eq hrun, verdict_eq (agree_restrict hrun).run_mem', rows_restrict] at hsame
    have hlength : (ownRows run db).length = db.shadowScores.rows.length :=
      congrArg Prod.snd (Option.some.inj hsame)
    exact of_decide_eq_true (List.length_filter_eq_length_iff.mp hlength row hrow)
  · intro hdb run' db' hid hagree hdb'
    obtain rfl : run' = run := by
      have hrun' := hagree.run_mem
      rw [hid, hrun] at hrun'
      exact (Option.some.inj hrun').symm
    exact (verdict_eq_of_agree hagree hdb hdb' alertRate now).symm

theorem ownVerdict_of_none {db : Database} {canaryId : ℕ}
    (hrun : db.canaryRuns.find? canaryId = none) (alertRate : ℚ) (now : ℤ) :
    OwnVerdict cfg db canaryId alertRate now := by
  intro run db' hid hagree
  rw [← hid, hagree.run_mem] at hrun
  cases hrun

variable (cfg) in
theorem find?_evaluate {db : Database} {canaryId : ℕ} {run : CanaryRun}
    (hrun : db.canaryRuns.find? canaryId = some run) (alertRate : ℚ) (now : ℤ) :
    ∃ run', (next cfg db ⟨.evaluateCanary canaryId alertRate, now⟩).canaryRuns.find? canaryId =
        some run' ∧
      run'.status =
        if Exceeds run db.shadowScores.rows alertRate then .rolledBack else .passed := by
  simp only [next, evaluateCanary, hrun]
  rw [IdTable.find?_update, hrun, Option.map_some, if_pos (IdTable.find?_eq_some.mp hrun).2]
  exact ⟨_, rfl, rfl⟩

theorem find?_next {db : Database} {c : Call} {id : ℕ} {run : CanaryRun}
    (hrun : db.canaryRuns.find? id = some run)
    (hother : ∀ canaryId alertRate, c.request = .evaluateCanary canaryId alertRate →
      canaryId ≠ id) : (next cfg db c).canaryRuns.find? id = some run := by
  obtain ⟨request, now⟩ := c
  cases request with
  | storeShadowScore => exact hrun
  | startCanary => exact IdTable.find?_insert hrun
  | evaluateCanary canaryId alertRate =>
    have hne := hother canaryId alertRate rfl
    cases hfind : db.canaryRuns.find? canaryId with
    | none =>
      simp only [next, evaluateCanary, hfind]
      exact hrun
    | some other =>
      simp only [next, evaluateCanary, hfind]
      rw [IdTable.find?_update, hrun, Option.map_some, if_neg]
      rw [(IdTable.find?_eq_some.mp hrun).2]
      exact hne.symm

variable (cfg) in
theorem rolledBack_next {db : Database} {c : Call} {id : ℕ} {run : CanaryRun}
    (hrun : db.canaryRuns.find? id = some run) (hstatus : run.status = .rolledBack)
    (hseparate : Separate db c) :
    ∃ run', (next cfg db c).canaryRuns.find? id = some run' ∧ run'.status = .rolledBack := by
  by_cases hevaluate : ∃ alertRate, c.request = .evaluateCanary id alertRate
  · obtain ⟨alertRate, hrequest⟩ := hevaluate
    obtain ⟨request, now⟩ := c
    obtain rfl : request = _ := hrequest
    obtain ⟨run', hrun', hstatus'⟩ := find?_evaluate cfg hrun alertRate now
    refine ⟨run', hrun', hstatus'.trans (if_pos ?_)⟩
    exact (hseparate run hrun).2 hstatus
  · refine ⟨run, find?_next hrun fun canaryId alertRate hrequest => ?_, hstatus⟩
    rintro rfl
    exact hevaluate ⟨alertRate, hrequest⟩

theorem rolledBack_foldl {db : Database} {calls : List Call} {id : ℕ} {run : CanaryRun}
    (hrun : db.canaryRuns.find? id = some run) (hstatus : run.status = .rolledBack)
    (hseparate : Along (next cfg) Separate db calls) :
    ∃ run', (calls.foldl (next cfg) db).canaryRuns.find? id = some run' ∧
      run'.status = .rolledBack := by
  induction calls generalizing db run with
  | nil => exact ⟨run, hrun, hstatus⟩
  | cons c calls ih =>
    obtain ⟨run', hrun', hstatus'⟩ := rolledBack_next cfg hrun hstatus hseparate.1
    exact ih hrun' hstatus' hseparate.2

theorem trustworthy_of_separate {db : Database} {calls : List Call}
    (h : Along (next cfg) Separate db calls) : Trustworthy cfg db calls where
  own := by
    rintro before canaryId alertRate now after rfl
    have hseparate := (along_append_iff.mp h).2.1
    cases hrun : (before.foldl (next cfg) db).canaryRuns.find? canaryId with
    | none => exact ownVerdict_of_none hrun alertRate now
    | some run => exact (ownVerdict_iff hrun alertRate now).mpr (hseparate run hrun).1
  terminal := by
    rintro before later after rfl run hrun hstatus run' hrun' hid
    have hlater := (along_append_iff.mp (along_append_iff.mp h).1).2
    obtain ⟨last, hlast, hstatus'⟩ :=
      rolledBack_foldl (IdTable.find?_eq_some.mpr ⟨hrun, rfl⟩) hstatus hlater
    rw [← List.foldl_append] at hlast
    obtain rfl : run' = last := by
      have hfound := IdTable.find?_eq_some.mpr ⟨hrun', hid⟩
      exact Option.some.inj (hfound.symm.trans hlast)
    rw [hstatus']
    exact Status.noConfusion

theorem separate_of_trustworthy {db : Database} {calls : List Call}
    (h : Trustworthy cfg db calls) : Along (next cfg) Separate db calls := by
  refine along_iff.mpr fun before c after hsplit => ?_
  obtain ⟨request, now⟩ := c
  cases request with
  | storeShadowScore => trivial
  | startCanary => trivial
  | evaluateCanary canaryId alertRate =>
    intro run hrun
    refine ⟨(ownVerdict_iff hrun alertRate now).mp (h.own before _ _ now after hsplit), ?_⟩
    intro hstatus
    by_contra hnot
    obtain ⟨hmem, hid⟩ := IdTable.find?_eq_some.mp hrun
    obtain ⟨run', hrun', hstatus'⟩ := find?_evaluate cfg hrun alertRate now
    obtain ⟨hmem', hid'⟩ := IdTable.find?_eq_some.mp hrun'
    refine h.terminal before [⟨.evaluateCanary canaryId alertRate, now⟩] after ?_ run hmem hstatus
      run' ?_ (hid'.trans hid.symm) (hstatus'.trans (if_neg hnot))
    · rw [hsplit, List.append_assoc, List.singleton_append]
    · rw [List.foldl_append]
      exact hmem'

end Calls

section Results

variable (cfg : Config)

/-- Whatever the database, evaluations judge by their own run and no run that was rolled back passes
later exactly when every evaluation finds comparisons of its run only and a rolled back run is
evaluated again only above its threshold. -/
theorem trustworthy_iff (db : Database) (calls : List Call) :
    Trustworthy cfg db calls ↔ Along (next cfg) Separate db calls :=
  ⟨separate_of_trustworthy, trustworthy_of_separate⟩

end Results

section Examples

/-- The texts are those of the numbers below. -/
def sampleConfig : Config where
  canaryDivergenceThreshold := 1 / 5
  round4 x := x
  str _ := "0.2"
  fixed4 x := if x = 1 / 4 then "0.2500" else "0.0000"

def secondCandidate : List Call :=
  [⟨.startCanary "v2" "v0" none, 1⟩,
    ⟨.storeShadowScore "GWALLET" "XLM/USDC" (1 / 2) (1 / 2) "v2", 2⟩]

def secondRun : CanaryRun where
  id := 1
  candidateVersion := "v2"
  productionVersion := "v0"
  startedAt := 1
  status := .running
  threshold := 1 / 5

/-- A comparison with an earlier candidate rolls it back. -/
theorem earlier_candidate_rolls_back :
    let db := (⟨.storeShadowScore "GWALLET" "XLM/USDC" (9 / 10) (2 / 5) "v1", 0⟩ ::
      secondCandidate).foldl (next sampleConfig) .empty
    let db' := secondCandidate.foldl (next sampleConfig) .empty
    Agree secondRun db db' ∧
      verdict sampleConfig db secondRun.id 0 3 = some (.rolledBack, 2) ∧
      verdict sampleConfig db' secondRun.id 0 3 = some (.passed, 1) := by
  refine ⟨⟨?_, ?_, ?_⟩, ?_, ?_⟩ <;> decide +kernel

end Examples

end CanaryRuns
