import Mathlib.Data.List.Nodup
import Mathlib.Data.List.Pairwise

/-!
# SQL tables

Tables as the lists of their rows, oldest first. A table with automatic row ids keeps them
unique by construction, and a table with a uniqueness constraint keeps its rows from clashing.
-/
namespace SqlTables

variable {Row : Type*} {id : Row → ℕ}

structure IdTable (Row : Type*) (id : Row → ℕ) where
  rows : List Row
  sequence : ℕ
  sorted : (rows.map id).Pairwise (· < ·)
  bounded : ∀ r ∈ rows, id r ≤ sequence
  deriving DecidableEq

namespace IdTable

def empty : IdTable Row id where
  rows := []
  sequence := 0
  sorted := .nil
  bounded := by simp

/-- `INSERT` of a row built from its id. -/
def insert (t : IdTable Row id) (row : ℕ → Row) (hrow : ∀ n, id (row n) = n) :
    IdTable Row id where
  rows := t.rows ++ [row (t.sequence + 1)]
  sequence := t.sequence + 1
  sorted := by
    rw [List.map_append, List.pairwise_append]
    refine ⟨t.sorted, List.pairwise_singleton _ _, ?_⟩
    intro i hi j hj
    obtain ⟨r, hr, rfl⟩ := List.mem_map.mp hi
    obtain rfl : j = _ := List.mem_singleton.mp hj
    rw [hrow]
    exact Nat.lt_succ_of_le (t.bounded r hr)
  bounded := by
    intro r hr
    rcases List.mem_append.mp hr with hr | hr
    · exact Nat.le_succ_of_le (t.bounded r hr)
    · obtain rfl := List.mem_singleton.mp hr
      exact Nat.le_of_eq (hrow _)

theorem rows_nodup (t : IdTable Row id) : t.rows.Nodup := by
  apply List.Nodup.of_map id
  exact t.sorted.imp fun hlt => Nat.ne_of_lt hlt

theorem map_update {β : Type*} (rows : List Row) (hit : Row → Prop) [DecidablePred hit]
    (set : Row → Row) (column : Row → β) (keeps : ∀ r, column (set r) = column r) :
    (rows.map fun r => if hit r then set r else r).map column = rows.map column := by
  rw [List.map_map]
  apply List.map_congr_left
  intro r _
  rw [Function.comp_apply]
  split_ifs
  · exact keeps r
  · rfl

/-- `UPDATE … SET … WHERE …`: every hit row is rewritten in place. -/
def update (t : IdTable Row id) (hit : Row → Prop) [DecidablePred hit] (set : Row → Row)
    (keeps : ∀ r, id (set r) = id r) : IdTable Row id where
  rows := t.rows.map fun r => if hit r then set r else r
  sequence := t.sequence
  sorted := by
    rw [map_update t.rows hit set id keeps]
    exact t.sorted
  bounded := by
    intro r hr
    have hid := List.mem_map_of_mem (f := id) hr
    rw [map_update t.rows hit set id keeps] at hid
    obtain ⟨r', hr', heq⟩ := List.mem_map.mp hid
    exact heq ▸ t.bounded r' hr'

/-- `DELETE FROM … WHERE …`: ids of deleted rows are not used again. -/
def delete (t : IdTable Row id) (hit : Row → Prop) [DecidablePred hit] : IdTable Row id where
  rows := t.rows.filter fun r => ¬ hit r
  sequence := t.sequence
  sorted := t.sorted.sublist (List.filter_sublist.map id)
  bounded r hr := t.bounded r (List.mem_of_mem_filter hr)

@[simp] theorem rows_delete (t : IdTable Row id) (hit : Row → Prop) [DecidablePred hit] :
    (t.delete hit).rows = t.rows.filter fun r => ¬ hit r := rfl

@[simp] theorem rows_insert (t : IdTable Row id) (row : ℕ → Row) (hrow) :
    (t.insert row hrow).rows = t.rows ++ [row (t.sequence + 1)] := rfl

@[simp] theorem rows_update (t : IdTable Row id) (hit : Row → Prop) [DecidablePred hit]
    (set : Row → Row) (keeps) :
    (t.update hit set keeps).rows = t.rows.map fun r => if hit r then set r else r := rfl

/-- `SELECT … WHERE id = ?`. -/
def find? (t : IdTable Row id) (n : ℕ) : Option Row := t.rows.find? fun r => decide (id r = n)

@[simp] theorem find?_empty (n : ℕ) : (empty : IdTable Row id).find? n = none := rfl

theorem eq_of_id_eq {t : IdTable Row id} {r r' : Row} (hr : r ∈ t.rows) (hr' : r' ∈ t.rows)
    (h : id r = id r') : r = r' :=
  List.inj_on_of_nodup_map (t.sorted.imp fun hlt => Nat.ne_of_lt hlt) hr hr' h

theorem find?_eq_some {t : IdTable Row id} {n : ℕ} {r : Row} :
    t.find? n = some r ↔ r ∈ t.rows ∧ id r = n := by
  constructor
  · intro h
    exact ⟨List.mem_of_find?_eq_some h, by simpa using List.find?_some h⟩
  · rintro ⟨hr, rfl⟩
    cases hfind : t.find? (id r) with
    | none =>
      have := List.find?_eq_none.mp hfind r hr
      simp at this
    | some r' =>
      have hmem := List.mem_of_find?_eq_some hfind
      have hid : id r' = id r := by simpa using List.find?_some hfind
      rw [eq_of_id_eq hmem hr hid]

theorem mem_update {t : IdTable Row id} {hit : Row → Prop} [DecidablePred hit] {set : Row → Row}
    {keeps} {r : Row} :
    r ∈ (t.update hit set keeps).rows ↔ ∃ r' ∈ t.rows, (if hit r' then set r' else r') = r :=
  List.mem_map

theorem mem_insert {t : IdTable Row id} {row : ℕ → Row} {hrow} {r : Row} :
    r ∈ (t.insert row hrow).rows ↔ r ∈ t.rows ∨ r = row (t.sequence + 1) := by
  rw [rows_insert, List.mem_append, List.mem_singleton]

theorem find?_update {t : IdTable Row id} {hit : Row → Prop} [DecidablePred hit] {set : Row → Row}
    {keeps} {n : ℕ} : (t.update hit set keeps).find? n =
      (t.find? n).map fun r => if hit r then set r else r := by
  have hsame (r : Row) : id (if hit r then set r else r) = id r := by
    split_ifs
    · exact keeps r
    · rfl
  unfold find?
  rw [rows_update, List.find?_map]
  congr 2
  funext r
  rw [Function.comp_apply, hsame]

theorem find?_insert {t : IdTable Row id} {row : ℕ → Row} {hrow} {n : ℕ} {r : Row}
    (h : t.find? n = some r) : (t.insert row hrow).find? n = some r := by
  obtain ⟨hr, hid⟩ := find?_eq_some.mp h
  exact find?_eq_some.mpr ⟨mem_insert.mpr (.inl hr), hid⟩

theorem find?_insert_cases {t : IdTable Row id} {row : ℕ → Row} {hrow} {n : ℕ} {r : Row}
    (h : (t.insert row hrow).find? n = some r) :
    t.find? n = some r ∨ (t.find? n = none ∧ r = row (t.sequence + 1) ∧ n = t.sequence + 1) := by
  obtain ⟨hr, hid⟩ := find?_eq_some.mp h
  rcases mem_insert.mp hr with hr | rfl
  · exact .inl (find?_eq_some.mpr ⟨hr, hid⟩)
  · rw [hrow] at hid
    subst hid
    refine .inr ⟨?_, rfl, rfl⟩
    cases hfind : t.find? (t.sequence + 1) with
    | none => rfl
    | some r' =>
      obtain ⟨hmem, hid⟩ := find?_eq_some.mp hfind
      have := t.bounded r' hmem
      omega

end IdTable

structure UniqueTable (Row : Type*) (Clash : Row → Row → Prop) where
  rows : List Row
  distinct : rows.Pairwise fun a b => ¬ Clash a b

namespace UniqueTable

variable {Clash : Row → Row → Prop}

def empty : UniqueTable Row Clash := ⟨[], .nil⟩

theorem eq_of_clash [Std.Symm Clash] {t : UniqueTable Row Clash} {r r' : Row} (hr : r ∈ t.rows)
    (hr' : r' ∈ t.rows) (h : Clash r r') : r = r' := by
  by_contra hne
  have : Std.Symm fun a b => ¬ Clash a b := ⟨fun _ _ hfree hclash => hfree (symm hclash)⟩
  exact t.distinct.forall hr hr' hne h

section

variable [DecidableRel Clash]

/-- `INSERT`, refused for a row that clashes with one that is there. -/
def insert? (t : UniqueTable Row Clash) (row : Row) : Option (UniqueTable Row Clash) :=
  if h : ∀ r ∈ t.rows, ¬ Clash r row then
    some {
      rows := t.rows ++ [row]
      distinct := by
        rw [List.pairwise_append]
        refine ⟨t.distinct, List.pairwise_singleton _ _, ?_⟩
        intro r hr r' hr'
        obtain rfl := List.mem_singleton.mp hr'
        exact h r hr }
  else none

/-- `INSERT OR IGNORE`. -/
def insertOrIgnore (t : UniqueTable Row Clash) (row : Row) : UniqueTable Row Clash :=
  (t.insert? row).getD t

theorem insert?_eq_some {t t' : UniqueTable Row Clash} {row : Row} (h : t.insert? row = some t') :
    (∀ r ∈ t.rows, ¬ Clash r row) ∧ t'.rows = t.rows ++ [row] := by
  unfold insert? at h
  split_ifs at h with hfree
  obtain rfl := Option.some.inj h
  exact ⟨hfree, rfl⟩

theorem insert?_eq_none {t : UniqueTable Row Clash} {row : Row} :
    t.insert? row = none ↔ ∃ r ∈ t.rows, Clash r row := by
  unfold insert?
  split_ifs with hfree
  · simp only [false_iff, not_exists, not_and]
    exact hfree
  · push Not at hfree
    simpa using hfree

theorem mem_insertOrIgnore_of_mem {t : UniqueTable Row Clash} {row r : Row} (h : r ∈ t.rows) :
    r ∈ (t.insertOrIgnore row).rows := by
  unfold insertOrIgnore
  cases hinsert : t.insert? row with
  | none => exact h
  | some t' =>
    rw [Option.getD_some, (insert?_eq_some hinsert).2]
    exact List.mem_append_left _ h

end

/-- `UPDATE` of columns that the constraint does not mention. -/
def update (t : UniqueTable Row Clash) (hit : Row → Prop) [DecidablePred hit] (set : Row → Row)
    (keeps : ∀ a b, (Clash (set a) b → Clash a b) ∧ (Clash a (set b) → Clash a b)) :
    UniqueTable Row Clash where
  rows := t.rows.map fun r => if hit r then set r else r
  distinct := by
    rw [List.pairwise_map]
    apply t.distinct.imp
    intro a b hab hclash
    apply hab
    split_ifs at hclash
    · exact (keeps a b).1 ((keeps (set a) b).2 hclash)
    · exact (keeps a b).1 hclash
    · exact (keeps a b).2 hclash
    · exact hclash

@[simp] theorem rows_update (t : UniqueTable Row Clash) (hit : Row → Prop) [DecidablePred hit]
    (set : Row → Row) (keeps) :
    (t.update hit set keeps).rows = t.rows.map fun r => if hit r then set r else r := rfl

end UniqueTable

end SqlTables
