import LedgerLens.LabelledRuns
import LedgerLens.SqlTables
import Mathlib.Algebra.Order.Group.Int
import Mathlib.Data.String.Basic

/-!
# Tiered retention

`storage/retention.py`, the engine that moves the rows of a table from the hot database to the warm
one and on to monthly Parquet files, and the query over the three tiers. A migration makes its
steps durable one by one, and may stop after any of them.
-/
namespace TieredRetention

open LabelledRuns SqlTables

/-- Microseconds, in UTC. -/
abbrev Instant := ℤ

def days (n : ℤ) : ℤ := n * 86400000000

/-- The uniform text of times: texts order as the times do. -/
structure IsoFormat where
  isoformat : Instant → String
  mono : ∀ s t : Instant, s ≤ t → isoformat s ≤ isoformat t

/-- The age in days at which a row turns warm, and cold. -/
structure TieredRetentionEngine where
  hotDays : ℤ
  warmDays : ℤ
  require : 0 < hotDays ∧ hotDays < warmDays

structure Row (α : Type) where
  id : ℕ
  timestamp : String
  columns : α
  deriving DecidableEq

/-- The table of the primary database, that of the warm one, and the Parquet files by month. -/
structure Tiers (α : Type) where
  hot : IdTable (Row α) Row.id
  warm : List (Row α)
  cold : List (String × List (Row α))

def Tiers.empty (α : Type) : Tiers α := ⟨.empty, [], []⟩

def monthOf (timestamp : String) : String := String.ofList (timestamp.toList.take 7)

def appendMonth {α : Type} : List (String × List (Row α)) → String → List (Row α) →
    List (String × List (Row α))
  | [], month, part => [(month, part)]
  | file :: files, month, part =>
    if file.1 = month then (month, file.2 ++ part) :: files
    else if month < file.1 then (month, part) :: file :: files
    else file :: appendMonth files month part

def groupMonths {α : Type} (rows : List (Row α)) : List (String × List (Row α)) :=
  rows.foldl (fun parts r => appendMonth parts (monthOf r.timestamp) [r]) []

section Engine

variable (engine : TieredRetentionEngine) (format : IsoFormat) {α : Type}

def hotCutoff (now : Instant) : String := format.isoformat (now - days engine.hotDays)

def coldCutoff (now : Instant) : String := format.isoformat (now - days engine.warmDays)

/-- One transaction, which fails where the warm table has the id of a row. -/
def hotToWarm (s : Tiers α) (cutoff : String) : Option (Tiers α) :=
  let moved := s.hot.rows.filter fun r => r.timestamp < cutoff
  if ∃ r ∈ moved, ∃ w ∈ s.warm, w.id = r.id then none
  else some { s with
    hot := s.hot.delete fun r => r.timestamp < cutoff
    warm := s.warm ++ moved }

def writeMonths (s : Tiers α) : List (String × List (Row α)) → List (Tiers α)
  | [] => []
  | part :: parts =>
    let s := { s with cold := appendMonth s.cold part.1 part.2 }
    s :: writeMonths s parts

def aged (s : Tiers α) (cutoff : String) : List (Row α) :=
  s.warm.filter fun r => r.timestamp < cutoff

/-- The state after all the writes and the deletion from the warm table. -/
def purged (s : Tiers α) (cutoff : String) : Tiers α :=
  { s with
    warm := s.warm.filter fun r => ¬ r.timestamp < cutoff
    cold := (groupMonths (aged s cutoff)).foldl (fun cold part => appendMonth cold part.1 part.2)
      s.cold }

def warmToCold (s : Tiers α) (cutoff : String) : List (Tiers α) :=
  if aged s cutoff = [] then []
  else writeMonths s (groupMonths (aged s cutoff)) ++ [purged s cutoff]

def migrate (s : Tiers α) (now : Instant) : List (Tiers α) :=
  match hotToWarm s (hotCutoff engine format now) with
  | none => []
  | some s => s :: warmToCold s (coldCutoff engine format now)

def InWindow (start stop : Option String) (r : Row α) : Prop :=
  (∀ a ∈ start, a ≤ r.timestamp) ∧ ∀ b ∈ stop, r.timestamp < b

instance (start stop : Option String) (r : Row α) : Decidable (InWindow start stop r) :=
  inferInstanceAs (Decidable ((∀ a ∈ start, _) ∧ ∀ b ∈ stop, _))

def queryCold (s : Tiers α) (start stop : Option String) : List (Row α) :=
  s.cold.flatMap fun file =>
    if (∃ a ∈ start, file.1 < monthOf a) ∨ ∃ b ∈ stop, monthOf b < file.1 then []
    else file.2.filter fun r => InWindow start stop r

/-- A tier that is too old for the window is left out. -/
def query (s : Tiers α) (start stop : Option String) (now : Instant) : List (Row α) :=
  let hot := s.hot.rows.filter fun r => InWindow start stop r
  let warm := if ∀ a ∈ start, a < hotCutoff engine format now then
    s.warm.filter fun r => InWindow start stop r else []
  let cold := if ∀ a ∈ start, a < coldCutoff engine format now then
    queryCold s start stop else []
  (hot ++ warm ++ cold).mergeSort fun r r' => decide (r.timestamp ≤ r'.timestamp)

structure Archive (α : Type) where
  tiers : Tiers α
  clock : Instant
  inserted : List (Row α)

def Archive.empty (α : Type) (clock : Instant) : Archive α := ⟨.empty α, clock, []⟩

/-- An insertion into the hot table, or a migration and the number of its durable steps after which
it stops. -/
inductive Label (α : Type) where
  | insert (timestamp : String) (columns : α)
  | migrate (now : Instant) (steps : ℕ)

def next (s : Archive α) : Label α → Option (Archive α)
  | .insert timestamp columns =>
    some { s with
      tiers := { s.tiers with hot := s.tiers.hot.insert (⟨·, timestamp, columns⟩) fun _ => rfl }
      inserted := s.inserted ++ [⟨s.tiers.hot.sequence + 1, timestamp, columns⟩] }
  | .migrate now steps =>
    if now < s.clock then none
    else (s.tiers :: migrate engine format s.tiers now)[steps]?.map fun tiers =>
      ⟨tiers, now, s.inserted⟩

/-- The migration does not stop between its first write of a month and the deletion of the rows
written. -/
def Whole (s : Archive α) : Label α → Prop
  | .insert _ _ => True
  | .migrate now steps => steps ≤ 1 ∨ steps = (migrate engine format s.tiers now).length

instance (s : Archive α) : (l : Label α) → Decidable (Whole engine format s l)
  | .insert _ _ => inferInstanceAs (Decidable True)
  | .migrate _ _ => inferInstanceAs (Decidable (_ ∨ _))

/-- A query returns every inserted row of its window once. -/
def Exact (s : Archive α) : Prop :=
  ∀ start stop now, s.clock ≤ now →
    (query engine format s.tiers start stop now).Perm
      (s.inserted.filter fun r => InWindow start stop r)

end Engine

theorem lt_of_take_lt {l l' : List Char} {n : ℕ} (h : l.take n < l'.take n) : l < l' := by
  induction l generalizing n l' with
  | nil =>
    cases l' with
    | nil => simp at h
    | cons b l' => exact .nil
  | cons a l ih =>
    cases n with
    | zero => simp at h
    | succ n =>
      cases l' with
      | nil => simp at h
      | cons b l' =>
        rw [List.take_succ_cons, List.take_succ_cons, List.cons_lt_cons_iff] at h
        exact List.cons_lt_cons_iff.mpr (h.imp_right fun hrest => ⟨hrest.1, ih hrest.2⟩)

theorem lt_of_monthOf_lt {s t : String} (h : monthOf s < monthOf t) : s < t := by
  rw [String.lt_iff_toList_lt, monthOf, monthOf, String.toList_ofList, String.toList_ofList] at h
  exact String.lt_iff_toList_lt.mpr (lt_of_take_lt h)

section Months

variable {α : Type}

def rowsOf (files : List (String × List (Row α))) : List (Row α) := files.flatMap Prod.snd

def Filed (files : List (String × List (Row α))) : Prop :=
  ∀ file ∈ files, ∀ r ∈ file.2, monthOf r.timestamp = file.1

theorem rowsOf_appendMonth (files : List (String × List (Row α))) (month : String)
    (part : List (Row α)) :
    (rowsOf (appendMonth files month part)).Perm (rowsOf files ++ part) := by
  induction files with
  | nil => simp [appendMonth, rowsOf]
  | cons file files ih =>
    rw [appendMonth]
    split_ifs
    · simp only [rowsOf, List.flatMap_cons, List.append_assoc]
      exact List.perm_append_comm.append_left _
    · simp only [rowsOf, List.flatMap_cons]
      exact List.perm_append_comm
    · simp only [rowsOf, List.flatMap_cons, List.append_assoc] at ih ⊢
      exact ih.append_left _

theorem filed_appendMonth {files : List (String × List (Row α))} {month : String}
    {part : List (Row α)} (h : Filed files) (hpart : ∀ r ∈ part, monthOf r.timestamp = month) :
    Filed (appendMonth files month part) := by
  induction files with
  | nil =>
    intro file hfile
    obtain rfl := List.mem_singleton.mp hfile
    exact hpart
  | cons file files ih =>
    obtain ⟨hfile, hfiles⟩ := List.forall_mem_cons.mp h
    rw [appendMonth]
    split_ifs with hmonth
    · apply List.forall_mem_cons.mpr ⟨_, hfiles⟩
      intro r hr
      rcases List.mem_append.mp hr with hr | hr
      · exact (hfile r hr).trans hmonth
      · exact hpart r hr
    · exact List.forall_mem_cons.mpr ⟨hpart, h⟩
    · exact List.forall_mem_cons.mpr ⟨hfile, ih hfiles⟩

theorem rowsOf_foldl_appendMonth (files parts : List (String × List (Row α))) :
    (rowsOf (parts.foldl (fun files part => appendMonth files part.1 part.2) files)).Perm
      (rowsOf files ++ rowsOf parts) := by
  induction parts generalizing files with
  | nil => simp [rowsOf]
  | cons part parts ih =>
    rw [List.foldl_cons]
    apply (ih _).trans
    have hfirst := (rowsOf_appendMonth files part.1 part.2).append_right (rowsOf parts)
    simpa [rowsOf] using hfirst

theorem filed_foldl_appendMonth {files parts : List (String × List (Row α))} (h : Filed files)
    (hparts : Filed parts) :
    Filed (parts.foldl (fun files part => appendMonth files part.1 part.2) files) := by
  induction parts generalizing files with
  | nil => exact h
  | cons part parts ih =>
    obtain ⟨hpart, hparts⟩ := List.forall_mem_cons.mp hparts
    exact ih (filed_appendMonth h hpart) hparts

theorem groupMonths_eq (rows : List (Row α)) : groupMonths rows =
    (rows.map fun r => (monthOf r.timestamp, [r])).foldl
      (fun files part => appendMonth files part.1 part.2) [] := by
  rw [groupMonths, List.foldl_map]

theorem rowsOf_groupMonths (rows : List (Row α)) : (rowsOf (groupMonths rows)).Perm rows := by
  rw [groupMonths_eq]
  have hall := rowsOf_foldl_appendMonth [] (rows.map fun r => (monthOf r.timestamp, [r]))
  simpa [rowsOf, List.flatMap_map] using hall

theorem filed_groupMonths (rows : List (Row α)) : Filed (groupMonths rows) := by
  rw [groupMonths_eq]
  apply filed_foldl_appendMonth
  · intro file hfile
    exact absurd hfile List.not_mem_nil
  · intro file hfile r hr
    obtain ⟨r', -, rfl⟩ := List.mem_map.mp hfile
    obtain rfl := List.mem_singleton.mp hr
    rfl

theorem appendMonth_nonempty {files : List (String × List (Row α))} {month : String}
    {part : List (Row α)} (h : ∀ file ∈ files, file.2 ≠ []) (hpart : part ≠ []) :
    ∀ file ∈ appendMonth files month part, file.2 ≠ [] := by
  induction files with
  | nil =>
    intro file hfile
    obtain rfl := List.mem_singleton.mp hfile
    exact hpart
  | cons file files ih =>
    obtain ⟨hfile, hfiles⟩ := List.forall_mem_cons.mp h
    rw [appendMonth]
    split_ifs
    · exact List.forall_mem_cons.mpr ⟨List.append_ne_nil_of_right_ne_nil _ hpart, hfiles⟩
    · exact List.forall_mem_cons.mpr ⟨hpart, h⟩
    · exact List.forall_mem_cons.mpr ⟨hfile, ih hfiles⟩

theorem groupMonths_nonempty (rows : List (Row α)) : ∀ part ∈ groupMonths rows, part.2 ≠ [] := by
  have hfold (rows : List (Row α)) (parts : List (String × List (Row α)))
      (hparts : ∀ part ∈ parts, part.2 ≠ []) : ∀ part ∈ rows.foldl
        (fun parts r => appendMonth parts (monthOf r.timestamp) [r]) parts, part.2 ≠ [] := by
    induction rows generalizing parts with
    | nil => exact hparts
    | cons r rows ih => exact ih _ (appendMonth_nonempty hparts (List.cons_ne_nil r []))
  exact hfold rows [] fun part hpart => absurd hpart List.not_mem_nil

end Months

section Contents

variable {engine : TieredRetentionEngine} {format : IsoFormat} {α : Type}

def Tiers.rows (s : Tiers α) : List (Row α) := s.hot.rows ++ s.warm ++ rowsOf s.cold

theorem rows_hotToWarm {s t : Tiers α} {cutoff : String} (h : hotToWarm s cutoff = some t) :
    t.rows.Perm s.rows ∧ t.cold = s.cold ∧
      ∀ r ∈ t.warm, r ∈ s.warm ∨ r.timestamp < cutoff := by
  obtain ⟨-, heq⟩ := Option.ite_none_left_eq_some.mp h
  obtain rfl := Option.some.inj heq
  refine ⟨?_, rfl, ?_⟩
  · have hsplit := List.filter_append_perm (fun r : Row α => r.timestamp < cutoff) s.hot.rows
    have hhot : (s.hot.rows.filter (fun r => ! decide (r.timestamp < cutoff)) ++
        (s.warm ++ s.hot.rows.filter fun r => r.timestamp < cutoff)).Perm
          (s.hot.rows ++ s.warm) := by
      refine (List.perm_append_comm.append_left _).trans ?_
      rw [← List.append_assoc]
      exact (List.perm_append_comm.trans hsplit).append_right _
    simpa [Tiers.rows] using hhot.append_right (rowsOf s.cold)
  · intro r hr
    rcases List.mem_append.mp hr with hr | hr
    · exact .inl hr
    · exact .inr (by simpa using (List.mem_filter.mp hr).2)

theorem rows_purged (s : Tiers α) (cutoff : String) : (purged s cutoff).rows.Perm s.rows := by
  have hcold := (rowsOf_foldl_appendMonth s.cold (groupMonths (aged s cutoff))).trans
    ((rowsOf_groupMonths (aged s cutoff)).append_left _)
  have hsplit : (s.warm.filter (fun r => ! decide (r.timestamp < cutoff)) ++
      aged s cutoff).Perm s.warm :=
    List.perm_append_comm.trans
      (List.filter_append_perm (fun r : Row α => r.timestamp < cutoff) s.warm)
  have hboth : (s.warm.filter (fun r => ! decide (r.timestamp < cutoff)) ++
      rowsOf (purged s cutoff).cold).Perm (s.warm ++ rowsOf s.cold) := by
    apply (hcold.append_left _).trans
    refine (List.perm_append_comm.append_left _).trans ?_
    rw [← List.append_assoc]
    exact hsplit.append_right _
  simpa [Tiers.rows, purged] using hboth.append_left s.hot.rows

theorem cold_purged (s : Tiers α) (cutoff : String) :
    ∀ r ∈ rowsOf (purged s cutoff).cold, r ∈ rowsOf s.cold ∨ r.timestamp < cutoff := by
  have hcold := (rowsOf_foldl_appendMonth s.cold (groupMonths (aged s cutoff))).trans
    ((rowsOf_groupMonths (aged s cutoff)).append_left _)
  intro r hr
  rcases List.mem_append.mp (hcold.mem_iff.mp hr) with hr | hr
  · exact .inl hr
  · exact .inr (by simpa using (List.mem_filter.mp hr).2)

theorem writeMonths_grow {s t : Tiers α} {parts : List (String × List (Row α))}
    (hparts : ∀ part ∈ parts, part.2 ≠ []) (h : t ∈ writeMonths s parts) :
    s.rows.length < t.rows.length := by
  induction parts generalizing s with
  | nil => exact absurd h List.not_mem_nil
  | cons part parts ih =>
    obtain ⟨hpart, hparts⟩ := List.forall_mem_cons.mp hparts
    have hlength := (rowsOf_appendMonth s.cold part.1 part.2).length_eq
    have hpos := List.length_pos_iff.mpr hpart
    have hfirst : s.rows.length <
        (Tiers.rows { s with cold := appendMonth s.cold part.1 part.2 }).length := by
      simp only [Tiers.rows, List.length_append] at hlength ⊢
      omega
    rcases List.mem_cons.mp h with rfl | h
    · exact hfirst
    · exact hfirst.trans (ih hparts h)

/-- What a migration leaves where it stops: the tiers as they were, those with the rows moved to the
warm table, those with the rows moved on to the files, or those of a stop between the writes. -/
theorem migrate_cases {s t : Tiers α} {now : Instant} {steps : ℕ}
    (h : (s :: migrate engine format s now)[steps]? = some t) :
    let whole := steps ≤ 1 ∨ steps = (migrate engine format s now).length
    (whole ∧ t = s) ∨ ∃ u, hotToWarm s (hotCutoff engine format now) = some u ∧
      ((whole ∧ (t = u ∨ t = purged u (coldCutoff engine format now))) ∨
        (¬ whole ∧ t ∈ writeMonths u (groupMonths (aged u (coldCutoff engine format now))))) := by
  cases steps with
  | zero => exact .inl ⟨.inl (Nat.zero_le 1), (Option.some.inj h).symm⟩
  | succ steps =>
    rw [List.getElem?_cons_succ] at h
    simp only [migrate] at h ⊢
    split at h
    · simp at h
    · rename_i u hmoved
      refine .inr ⟨u, hmoved, ?_⟩
      cases steps with
      | zero => exact .inl ⟨.inl le_rfl, .inl (Option.some.inj h).symm⟩
      | succ steps =>
        rw [List.getElem?_cons_succ, warmToCold] at h
        split_ifs at h with hnone
        · simp at h
        · have hlength := (List.getElem?_eq_some_iff.mp h).1
          rw [List.length_append, List.length_singleton] at hlength
          simp only [warmToCold, if_neg hnone, List.length_cons, List.length_append]
          rw [List.getElem?_append] at h
          split_ifs at h with hlt
          · refine .inr ⟨?_, List.mem_of_getElem? h⟩
            rw [List.length_nil]
            omega
          · have hlast := List.mem_singleton.mp (List.mem_of_getElem? h)
            refine .inl ⟨.inr ?_, .inr hlast⟩
            rw [List.length_nil]
            omega

/-- The tiers hold every row inserted once, and old rows only in the tiers for them. -/
structure Sound (engine : TieredRetentionEngine) (format : IsoFormat) (s : Archive α) : Prop where
  contents : s.tiers.rows.Perm s.inserted
  warm : ∀ r ∈ s.tiers.warm, r.timestamp < hotCutoff engine format s.clock
  cold : ∀ r ∈ rowsOf s.tiers.cold, r.timestamp < coldCutoff engine format s.clock
  filed : Filed s.tiers.cold

theorem hotCutoff_mono {now now' : Instant} (h : now ≤ now') :
    hotCutoff engine format now ≤ hotCutoff engine format now' :=
  format.mono _ _ (Int.sub_le_sub_right h _)

theorem coldCutoff_mono {now now' : Instant} (h : now ≤ now') :
    coldCutoff engine format now ≤ coldCutoff engine format now' :=
  format.mono _ _ (Int.sub_le_sub_right h _)

theorem sound_empty (clock : Instant) : Sound engine format (.empty α clock) where
  contents := .refl _
  warm _ hr := absurd hr List.not_mem_nil
  cold _ hr := absurd hr List.not_mem_nil
  filed _ hfile := absurd hfile List.not_mem_nil

theorem Sound.later {s : Archive α} {now : Instant} (h : Sound engine format s)
    (hlater : s.clock ≤ now) : Sound engine format { s with clock := now } where
  contents := h.contents
  warm r hr := (h.warm r hr).trans_le (hotCutoff_mono hlater)
  cold r hr := (h.cold r hr).trans_le (coldCutoff_mono hlater)
  filed := h.filed

theorem Sound.hotToWarm {s : Archive α} {t : Tiers α} (h : Sound engine format s)
    (hmoved : hotToWarm s.tiers (hotCutoff engine format s.clock) = some t) :
    Sound engine format { s with tiers := t } := by
  obtain ⟨hrows, hcold, hwarm⟩ := rows_hotToWarm hmoved
  constructor
  · exact hrows.trans h.contents
  · exact fun r hr => (hwarm r hr).elim (h.warm r) id
  · rw [hcold]
    exact h.cold
  · rw [hcold]
    exact h.filed

theorem Sound.purged {s : Archive α} (h : Sound engine format s) :
    Sound engine format { s with
      tiers := TieredRetention.purged s.tiers (coldCutoff engine format s.clock) } where
  contents := (rows_purged _ _).trans h.contents
  warm r hr := h.warm r (List.mem_of_mem_filter hr)
  cold r hr := (cold_purged _ _ r hr).elim (h.cold r) id
  filed := filed_foldl_appendMonth h.filed (filed_groupMonths _)

theorem Sound.next {s t : Archive α} {l : Label α} (h : Sound engine format s)
    (hnext : next engine format s l = some t) (hwhole : Whole engine format s l) :
    Sound engine format t := by
  cases l with
  | insert timestamp columns =>
    obtain rfl := Option.some.inj hnext
    refine ⟨?_, h.warm, h.cold, h.filed⟩
    have hrows := h.contents.append_right [⟨s.tiers.hot.sequence + 1, timestamp, columns⟩]
    refine List.Perm.trans ?_ hrows
    have hlast (new : Row α) : ([new] ++ (s.tiers.warm ++ rowsOf s.tiers.cold)).Perm
        (s.tiers.warm ++ rowsOf s.tiers.cold ++ [new]) := List.perm_append_comm
    simp only [Tiers.rows, IdTable.rows_insert, List.append_assoc] at hlast ⊢
    exact (hlast _).append_left _
  | migrate now steps =>
    obtain ⟨hearlier, heq⟩ := Option.ite_none_left_eq_some.mp hnext
    obtain ⟨tiers, hstop, rfl⟩ := Option.map_eq_some_iff.mp heq
    have hlater := h.later (not_lt.mp hearlier)
    rcases migrate_cases hstop with ⟨-, rfl⟩ | ⟨u, hmoved, hcases⟩
    · exact hlater
    · have hwarm := hlater.hotToWarm hmoved
      rcases hcases with ⟨-, rfl | rfl⟩ | ⟨hcrash, -⟩
      · exact hwarm
      · exact hwarm.purged
      · exact absurd hwhole hcrash

theorem skipped_tier {rows : List (Row α)} {cutoff : String} (start stop : Option String)
    (hold : ∀ r ∈ rows, r.timestamp < cutoff) :
    (if ∀ a ∈ start, a < cutoff then rows.filter fun r => InWindow start stop r else []) =
      rows.filter fun r => InWindow start stop r := by
  by_cases hstart : ∀ a ∈ start, a < cutoff
  · exact if_pos hstart
  · rw [if_neg hstart]
    push Not at hstart
    obtain ⟨a, ha, hle⟩ := hstart
    symm
    apply List.filter_eq_nil_iff.mpr
    intro r hr hwindow
    have hafter := (of_decide_eq_true hwindow).1 a ha
    exact absurd (hold r hr) (not_lt.mpr (hle.trans hafter))

theorem queryCold_eq {s : Tiers α} (h : Filed s.cold) (start stop : Option String) :
    queryCold s start stop = (rowsOf s.cold).filter fun r => InWindow start stop r := by
  have hfile (file : String × List (Row α)) (hfile : file ∈ s.cold) :
      (if (∃ a ∈ start, file.1 < monthOf a) ∨ ∃ b ∈ stop, monthOf b < file.1 then []
        else file.2.filter fun r => InWindow start stop r) =
      file.2.filter fun r => InWindow start stop r := by
    split_ifs with hskip
    · symm
      apply List.filter_eq_nil_iff.mpr
      intro r hr hwindow
      obtain ⟨hafter, hbefore⟩ := of_decide_eq_true hwindow
      have hmonth := h file hfile r hr
      rcases hskip with ⟨a, ha, hlt⟩ | ⟨b, hb, hlt⟩
      · rw [← hmonth] at hlt
        exact absurd (lt_of_monthOf_lt hlt) (not_lt.mpr (hafter a ha))
      · rw [← hmonth] at hlt
        exact absurd (lt_of_monthOf_lt hlt) (not_lt.mpr (hbefore b hb).le)
    · rfl
  rw [queryCold, rowsOf, List.filter_flatMap]
  exact List.flatMap_congr hfile

theorem Sound.exact {s : Archive α} (h : Sound engine format s) : Exact engine format s := by
  intro start stop now hlater
  have hwarm := skipped_tier start stop (h.later hlater).warm
  have hcold := skipped_tier start stop (h.later hlater).cold
  rw [← queryCold_eq h.filed] at hcold
  apply (List.mergeSort_perm _ _).trans
  rw [hwarm, hcold, queryCold_eq h.filed, ← List.filter_append, ← List.filter_append]
  exact h.contents.filter _

theorem Exact.length_eq {s : Archive α} (h : Exact engine format s) :
    s.tiers.rows.length = s.inserted.length := by
  have hall := (h none none s.clock le_rfl).length_eq
  have hwindow (r : Row α) : InWindow none none r := by simp [InWindow]
  simpa [query, queryCold, hwindow, Tiers.rows, rowsOf, List.length_mergeSort] using hall

/-- A stop between the writes and the deletion shows. -/
theorem whole_of_exact {s t : Archive α} {l : Label α} (hnext : next engine format s l = some t)
    (hsound : Sound engine format s) (h : Exact engine format t) : Whole engine format s l := by
  cases l with
  | insert timestamp columns => trivial
  | migrate now steps =>
    obtain ⟨-, heq⟩ := Option.ite_none_left_eq_some.mp hnext
    obtain ⟨tiers, hstop, rfl⟩ := Option.map_eq_some_iff.mp heq
    rcases migrate_cases hstop with ⟨hwhole, -⟩ | ⟨u, hmoved, ⟨hwhole, -⟩ | ⟨-, hbetween⟩⟩
    · exact hwhole
    · exact hwhole
    · have hgrown := writeMonths_grow (groupMonths_nonempty _) hbetween
      have hmoved := (rows_hotToWarm hmoved).1.length_eq
      have hbefore := hsound.contents.length_eq
      have hafter := h.length_eq
      simp only at hafter
      omega

/-- In a run from an empty table every query in every state returns the inserted rows of its window
once, exactly when no migration stops between its first write of a month and the deletion. -/
theorem exact_iff_whole {clock : Instant} {s : Archive α} {ls : List (Label α)}
    (h : Run (fun s l t => next engine format s l = some t) (.empty α clock) ls s) :
    (∀ before after u, ls = before ++ after →
      Run (fun s l t => next engine format s l = some t) (.empty α clock) before u →
      Exact engine format u) ↔
    Run (fun s l t => next engine format s l = some t ∧ Whole engine format s l)
      (.empty α clock) ls s := by
  have hsound {t : Archive α} {ls : List (Label α)}
      (hrun : Run (fun s l t => next engine format s l = some t ∧ Whole engine format s l)
        (.empty α clock) ls t) : Sound engine format t :=
    hrun.invariant (fun _ _ _ hold hstep => hold.next hstep.1 hstep.2) (sound_empty clock)
  constructor
  · intro hexact
    induction h with
    | refl => exact .refl _
    | @tail t u ls l hrun hstep ih =>
      have hbefore := ih fun before after v hls hv =>
        hexact before (after ++ [l]) v (by rw [hls, List.append_assoc]) hv
      have hlast := hexact (ls ++ [l]) [] u (by simp) (hrun.tail hstep)
      exact hbefore.tail ⟨hstep, whole_of_exact hstep (hsound hbefore) hlast⟩
  · rintro hwhole before after u rfl hu
    obtain ⟨v, hv, -⟩ := run_append_iff.mp hwhole
    have hdet : ∀ (s : Archive α) (l : Label α) (t t' : Archive α),
        next engine format s l = some t → next engine format s l = some t' → t = t' :=
      fun _ _ _ _ ht ht' => Option.some.inj (ht.symm.trans ht')
    obtain rfl := (hv.mono fun _ _ _ hstep => hstep.1).unique hdet hu
    exact (hsound hv).exact

end Contents

section Examples

def DEFAULT_HOT_DAYS : ℤ := 30

def DEFAULT_WARM_DAYS : ℤ := 365

theorem default_days : 0 < DEFAULT_HOT_DAYS ∧ DEFAULT_HOT_DAYS < DEFAULT_WARM_DAYS := by decide

def defaultEngine : TieredRetentionEngine := ⟨DEFAULT_HOT_DAYS, DEFAULT_WARM_DAYS, default_days⟩

def yearEndText (t : Instant) : String :=
  if t < 1733011200000000 then "2024-01-01T00:00:00+00:00" else "2024-12-01T00:00:00+00:00"

theorem yearEndText_mono (t t' : Instant) (hle : t ≤ t') : yearEndText t ≤ yearEndText t' := by
  by_cases hlate : t' < 1733011200000000
  · rw [yearEndText, yearEndText, if_pos hlate, if_pos (hle.trans_lt hlate)]
  · rw [yearEndText, yearEndText, if_neg hlate]
    split_ifs
    · exact (String.lt_iff_toList_lt.mpr (by decide)).le
    · exact le_rfl

def yearEndFormat : IsoFormat := ⟨yearEndText, yearEndText_mono⟩

/-- Two rows of different months, and a migration on 2024-12-31 that stops after some steps. -/
def yearEnd (steps : ℕ) : List (Label Unit) :=
  [.insert "2023-01-15T08:00:00+00:00" (), .insert "2023-02-10T09:00:00+00:00" (),
    .migrate 1735603200000000 steps]

theorem exact_year_end : ∃ s : Archive Unit,
    s.tiers.cold.length = 2 ∧ Exact defaultEngine yearEndFormat s := by
  have hrun : ((yearEnd 4).foldlM (fun s l => if Whole defaultEngine yearEndFormat s l then
      next defaultEngine yearEndFormat s l else none) (.empty Unit 0)).any
        (fun s => decide (s.tiers.cold.length = 2)) = true := by
    decide +kernel
  obtain ⟨s, hs, hcold⟩ := (Option.any_eq_true _ _).mp hrun
  have hwhole := run_iff_foldlM.mpr hs
  have hexact := (exact_iff_whole (hwhole.mono fun _ _ _ hstep => hstep.1)).mpr hwhole
  exact ⟨s, of_decide_eq_true hcold, hexact (yearEnd 4) [] s (by simp)
    (hwhole.mono fun _ _ _ hstep => hstep.1)⟩

/-- A stop after the write of the first month leaves its row in the warm table and in the file. -/
theorem duplicated_by_stop : ¬ ∀ (engine : TieredRetentionEngine) (format : IsoFormat)
    (clock : Instant) (s : Archive Unit) (ls : List (Label Unit)),
    Run (fun s l t => next engine format s l = some t) (.empty Unit clock) ls s →
      Exact engine format s := by
  intro h
  have hrun : ((yearEnd 2).foldlM (fun s l => if True then
      next defaultEngine yearEndFormat s l else none) (.empty Unit 0)).any
        (fun s => decide (s.tiers.rows.length = 3 ∧ s.inserted.length = 2)) = true := by
    decide +kernel
  obtain ⟨s, hs, hlengths⟩ := (Option.any_eq_true _ _).mp hrun
  have hsteps := (run_iff_foldlM.mpr hs).mono fun _ _ _ hstep => hstep.1
  have hexact := (h defaultEngine yearEndFormat 0 s (yearEnd 2) hsteps).length_eq
  obtain ⟨htiers, hinserted⟩ := of_decide_eq_true hlengths
  omega

end Examples

end TieredRetention
