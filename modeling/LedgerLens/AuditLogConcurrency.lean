import LedgerLens.AuditLog
import LedgerLens.LabelledRuns
import Mathlib.Logic.Function.Basic

/-!
# Concurrent appends to the audit log

Any number of callers run `append_entry` and `init_db` statement by statement on one database. An
insert opens a transaction that holds the write lock and that nobody else sees until its commit;
the reads before it are not part of it.
-/
namespace AuditLogConcurrency

open AuditLog HashChain LabelledRuns

/-- The statement a caller runs next. A call of `init_db` alone carries no entry. What was read
is kept with the number of rows there were when it was read. -/
inductive Position where
  | idle
  | count (e : Option Entry)
  | genesis (e : Option Entry) (seen : ℕ)
  | commitInit (e : Option Entry) (seen : Option ℕ)
  | last (e : Entry)
  | insert (e : Entry) (prev : Cell) (seen : ℕ)
  | commit (record : Record) (hash : String) (seen : ℕ)

/-- The committed table, the table as the holder of the write lock has changed it, and the
entries that `append_entry` has returned, oldest first. -/
structure Machine (Caller : Type) where
  table : Table
  pending : Option (Caller × Table)
  position : Caller → Position
  appended : List (Record × String)

inductive Turn (Caller : Type) where
  | start (c : Caller) (e : Option Entry)
  | statement (c : Caller) (now : String)
  | abort (c : Caller)

section

variable {Caller : Type} [DecidableEq Caller] {secret : List UInt8}

def fresh : Machine Caller := ⟨.empty, none, fun _ => .idle, []⟩

def Machine.move (m : Machine Caller) (c : Caller) (p : Position) : Machine Caller :=
  { m with position := Function.update m.position c p }

/-- `conn.commit()`: what the caller has pending becomes the table. -/
def Machine.commit (m : Machine Caller) (c : Caller) : Option (Machine Caller) :=
  match m.pending with
  | none => none
  | some (holder, t) => if holder = c then some { m with table := t, pending := none } else none

/-- An insert waits for the write lock, and raises where the entry hash is there already. -/
def Machine.insert (m : Machine Caller) (c : Caller) (record : Record) (hash : String)
    (then_ : Position) : Option (Machine Caller) :=
  match m.pending with
  | some _ => none
  | none =>
    match m.table.insert? record (.text hash) with
    | none => some (m.move c .idle)
    | some t => some { m.move c then_ with pending := some (c, t) }

def statement (secret : List UInt8) (m : Machine Caller) (c : Caller) (now : String) :
    Position → Option (Machine Caller)
  | .idle => none
  | .count e =>
    if m.table.rows = [] then some (m.move c (.genesis e m.table.rows.length))
    else some (m.move c (.commitInit e none))
  | .genesis e seen =>
    match computeEntryHash secret (genesisRecord now) with
    | none => some (m.move c .idle)
    | some hash => m.insert c (genesisRecord now) hash (.commitInit e (some seen))
  | .commitInit e seen =>
    let next := e.elim .idle .last
    match seen with
    | none => some (m.move c next)
    | some _ => (m.commit c).map fun m => m.move c next
  | .last e => some (m.move c (.insert e (lastHash m.table.rows) m.table.rows.length))
  | .insert e prev seen =>
    match computeEntryHash secret (e.record now prev) with
    | none => some (m.move c .idle)
    | some hash =>
      if ¬ e.Storable then some (m.move c .idle)
      else m.insert c (e.record now prev) hash (.commit (e.record now prev) hash seen)
  | .commit record hash _ =>
    (m.commit c).map fun m =>
      { m.move c .idle with appended := m.appended ++ [(record, hash)] }

/-- A call that is cut short loses what it has not committed. -/
def turn (secret : List UInt8) (m : Machine Caller) : Turn Caller → Option (Machine Caller)
  | .start c e =>
    match m.position c with
    | .idle => some (m.move c (.count e))
    | _ => none
  | .statement c now => statement secret m c now (m.position c)
  | .abort c =>
    some { m.move c .idle with pending := m.pending.filter fun p => decide (p.1 ≠ c) }

def Turns (secret : List UInt8) (m : Machine Caller) (e : Turn Caller) (m' : Machine Caller) :
    Prop :=
  turn secret m e = some m'

def Position.committing : Position → Option ℕ
  | .commitInit _ seen => seen
  | .commit _ _ seen => some seen
  | _ => none

def CommitsFresh (m : Machine Caller) : Turn Caller → Prop
  | .statement c _ => ∀ seen, (m.position c).committing = some seen → seen = m.table.rows.length
  | _ => True

instance (m : Machine Caller) : DecidablePred (CommitsFresh m)
  | .statement c _ =>
    inferInstanceAs (Decidable (∀ seen ∈ (m.position c).committing, seen = m.table.rows.length))
  | .start .. => .isTrue trivial
  | .abort _ => .isTrue trivial

structure Extends (secret : List UInt8) (table t : Table) (row : Row) (seen : ℕ) : Prop where
  rows : t.rows = table.rows ++ [row]
  rowSealed : Sealed secret row
  new : row.entryHash ∉ table.rows.map Row.entryHash
  seen_le : seen ≤ table.rows.length
  prevHash : row.record.prevHash = lastHash (table.rows.take seen)

structure Consistent (secret : List UInt8) (m : Machine Caller) : Prop where
  rowsSealed : ∀ row ∈ m.table.rows, Sealed secret row
  hashes : (m.table.rows.map Row.entryHash).Nodup
  counted : ∀ c e seen, m.position c = .genesis e seen → seen = 0
  read : ∀ c e prev seen, m.position c = .insert e prev seen →
    seen ≤ m.table.rows.length ∧ prev = lastHash (m.table.rows.take seen)
  waiting : ∀ c seen, (m.position c).committing = some seen →
    ∃ t row, m.pending = some (c, t) ∧ Extends secret m.table t row seen ∧
      ∀ record hash, m.position c = .commit record hash seen → row.content = (record, .text hash)
  appended : ∀ r ∈ m.appended, (r.1, Cell.text r.2) ∈ m.table.rows.map Row.content
  appendedOnce : m.appended.Nodup

omit [DecidableEq Caller] in
theorem Consistent.fresh : Consistent secret (fresh : Machine Caller) := by
  refine ⟨fun _ h => absurd h List.not_mem_nil, List.nodup_nil, ?_, ?_, ?_,
    fun _ h => absurd h List.not_mem_nil, List.nodup_nil⟩
  · intro c e seen h
    cases h
  · intro c e prev seen h
    cases h
  · intro c seen h
    cases h

theorem move_position (m : Machine Caller) (c c' : Caller) (p : Position) :
    (m.move c p).position c' = if c' = c then p else m.position c' :=
  Function.update_apply _ _ _ _

theorem Consistent.move {m : Machine Caller} (h : Consistent secret m) (c : Caller) {p : Position}
    (hgenesis : ∀ e seen, p = .genesis e seen → seen = 0)
    (hinsert : ∀ e prev seen, p = .insert e prev seen →
      seen ≤ m.table.rows.length ∧ prev = lastHash (m.table.rows.take seen))
    (hcommit : p.committing = none) : Consistent secret (m.move c p) := by
  refine ⟨h.rowsSealed, h.hashes, ?_, ?_, ?_, h.appended, h.appendedOnce⟩
  · intro c' e seen hp
    rw [move_position] at hp
    split_ifs at hp
    · exact hgenesis e seen hp
    · exact h.counted c' e seen hp
  · intro c' e prev seen hp
    rw [move_position] at hp
    split_ifs at hp
    · exact hinsert e prev seen hp
    · exact h.read c' e prev seen hp
  · intro c' seen hp
    rw [move_position] at hp ⊢
    split_ifs at hp ⊢
    · rw [hcommit] at hp
      cases hp
    · exact h.waiting c' seen hp

omit [DecidableEq Caller] in
theorem Consistent.no_commit {m : Machine Caller} (h : Consistent secret m)
    (hfree : m.pending = none) (c : Caller) : (m.position c).committing = none := by
  cases hp : (m.position c).committing with
  | none => rfl
  | some seen =>
    obtain ⟨t, row, hpending, -⟩ := h.waiting c seen hp
    rw [hfree] at hpending
    cases hpending

theorem Consistent.insert {m m' : Machine Caller} (h : Consistent secret m) {c : Caller}
    {record : Record} {hash : String} {next : Position} {seen : ℕ}
    (hsign : computeEntryHash secret record = some hash) (hseen : seen ≤ m.table.rows.length)
    (hprev : record.prevHash = lastHash (m.table.rows.take seen))
    (hnext : next.committing = some seen)
    (hcontent : ∀ record' hash', next = .commit record' hash' seen →
      record' = record ∧ hash' = hash)
    (hstep : m.insert c record hash next = some m') : Consistent secret m' := by
  unfold Machine.insert at hstep
  split at hstep
  · cases hstep
  · rename_i hfree
    split at hstep
    · obtain rfl := Option.some.inj hstep
      exact h.move c nofun nofun rfl
    · rename_i t hinsert
      obtain rfl := Option.some.inj hstep
      obtain ⟨hnew, hrows, -⟩ := insert?_eq_some hinsert
      have hextends : Extends secret m.table t ⟨m.table.sequence + 1, record, .text hash⟩ seen :=
        ⟨hrows, ⟨hash, hsign, rfl⟩, hnew, hseen, hprev⟩
      refine ⟨h.rowsSealed, h.hashes, ?_, ?_, ?_, h.appended, h.appendedOnce⟩
      · intro c' e seen' hp
        have hp : (m.move c next).position c' = .genesis e seen' := hp
        rw [move_position] at hp
        split_ifs at hp
        · rw [hp] at hnext
          cases hnext
        · exact h.counted c' e seen' hp
      · intro c' e prev seen' hp
        have hp : (m.move c next).position c' = .insert e prev seen' := hp
        rw [move_position] at hp
        split_ifs at hp
        · rw [hp] at hnext
          cases hnext
        · exact h.read c' e prev seen' hp
      · intro c' seen' hp
        have hp : ((m.move c next).position c').committing = some seen' := hp
        rw [move_position] at hp
        by_cases hc : c' = c
        · subst hc
          rw [if_pos rfl, hnext] at hp
          obtain rfl := Option.some.inj hp
          refine ⟨t, _, rfl, hextends, fun record' hash' hat => ?_⟩
          have hat : (m.move c' next).position c' = .commit record' hash' seen := hat
          rw [move_position, if_pos rfl] at hat
          obtain ⟨rfl, rfl⟩ := hcontent record' hash' hat
          rfl
        · rw [if_neg hc, h.no_commit hfree] at hp
          cases hp

theorem take_append_row {rows : List Row} {row : Row} {seen : ℕ} (h : seen ≤ rows.length) :
    (rows ++ [row]).take seen = rows.take seen :=
  List.take_append_of_le_length h

theorem commit_cases {m m' : Machine Caller} (h : Consistent secret m) {c : Caller} {seen : ℕ}
    (hp : (m.position c).committing = some seen) (hstep : m.commit c = some m') :
    ∃ t row, Extends secret m.table t row seen ∧ m' = { m with table := t, pending := none } ∧
      ∀ record hash, m.position c = .commit record hash seen →
        row.content = (record, .text hash) := by
  obtain ⟨t, row, hpending, hextends, hcontent⟩ := h.waiting c seen hp
  rw [Machine.commit, hpending] at hstep
  dsimp only at hstep
  rw [if_pos rfl] at hstep
  exact ⟨t, row, hextends, (Option.some.inj hstep).symm, hcontent⟩

theorem Consistent.publish {m : Machine Caller} (h : Consistent secret m) {c : Caller} {t : Table}
    {row : Row} {seen : ℕ} (hp : (m.position c).committing = some seen)
    (hextends : Extends secret m.table t row seen) {next : Position}
    (hnext : next = .idle ∨ ∃ e, next = .last e) {appended : List (Record × String)}
    (hpublished : ∀ r ∈ appended, (r.1, Cell.text r.2) ∈ t.rows.map Row.content)
    (honce : appended.Nodup) :
    Consistent secret
      { ({ m with table := t, pending := none } : Machine Caller).move c next with
        appended := appended } := by
  have hother (c' : Caller) (hne : c' ≠ c) : (m.position c').committing = none := by
    cases hc : (m.position c').committing with
    | none => rfl
    | some seen' =>
      obtain ⟨_, _, hpending, -⟩ := h.waiting c seen hp
      obtain ⟨_, _, hpending', -⟩ := h.waiting c' seen' hc
      rw [hpending] at hpending'
      exact absurd (Prod.mk.inj (Option.some.inj hpending')).1.symm hne
  have hposition (c' : Caller) : ({ ({ m with table := t, pending := none } : Machine Caller).move
      c next with appended := appended } : Machine Caller).position c' =
        if c' = c then next else m.position c' := Function.update_apply _ _ _ _
  refine ⟨?_, ?_, ?_, ?_, ?_, hpublished, honce⟩
  · intro row' hrow'
    have hrow' : row' ∈ t.rows := hrow'
    rw [hextends.rows] at hrow'
    rcases List.mem_append.mp hrow' with hrow' | hrow'
    · exact h.rowsSealed row' hrow'
    · exact List.mem_singleton.mp hrow' ▸ hextends.rowSealed
  · show (t.rows.map Row.entryHash).Nodup
    rw [hextends.rows, List.map_append, List.nodup_append]
    refine ⟨h.hashes, List.nodup_singleton _, ?_⟩
    rintro x hx y hy rfl
    obtain rfl : x = row.entryHash := List.mem_singleton.mp hy
    exact hextends.new hx
  · intro c' e seen' hat
    rw [hposition] at hat
    split_ifs at hat
    · rcases hnext with rfl | ⟨_, rfl⟩ <;> cases hat
    · exact h.counted c' e seen' hat
  · intro c' e prev seen' hat
    rw [hposition] at hat
    split_ifs at hat
    · rcases hnext with rfl | ⟨_, rfl⟩ <;> cases hat
    · obtain ⟨hle, hprev⟩ := h.read c' e prev seen' hat
      show seen' ≤ t.rows.length ∧ prev = lastHash (t.rows.take seen')
      rw [hextends.rows, take_append_row hle, List.length_append]
      exact ⟨hle.trans (Nat.le_add_right _ _), hprev⟩
  · intro c' seen' hat
    rw [hposition] at hat
    by_cases hc : c' = c
    · rw [if_pos hc] at hat
      rcases hnext with rfl | ⟨_, rfl⟩ <;> cases hat
    · rw [if_neg hc, hother c' hc] at hat
      cases hat

theorem Consistent.abort {m : Machine Caller} (h : Consistent secret m) (c : Caller) :
    Consistent secret
      { m.move c .idle with pending := m.pending.filter fun p => decide (p.1 ≠ c) } := by
  have hmoved := h.move c (p := .idle) nofun nofun rfl
  refine ⟨hmoved.rowsSealed, hmoved.hashes, hmoved.counted, hmoved.read, ?_, h.appended,
    h.appendedOnce⟩
  intro c' seen hp
  obtain ⟨t, row, hpending, hextends, hcontent⟩ := hmoved.waiting c' seen hp
  refine ⟨t, row, ?_, hextends, hcontent⟩
  have hne : c' ≠ c := by
    rintro rfl
    have hp : ((m.move c' .idle).position c').committing = some seen := hp
    rw [move_position, if_pos rfl] at hp
    cases hp
  have hpending : m.pending = some (c', t) := hpending
  rw [hpending]
  simp [hne]

omit [DecidableEq Caller] in
theorem Consistent.appended_publish {m : Machine Caller} (h : Consistent secret m) {t : Table}
    {row : Row} {seen : ℕ} (hextends : Extends secret m.table t row seen) :
    ∀ r ∈ m.appended, (r.1, Cell.text r.2) ∈ t.rows.map Row.content := by
  intro r hr
  rw [hextends.rows, List.map_append]
  exact List.mem_append_left _ (h.appended r hr)

omit [DecidableEq Caller] in
/-- The entry that is returned is the new row, and the table already had the hashes of the entries
returned before. -/
theorem Consistent.appended_returned {m : Machine Caller} (h : Consistent secret m) {t : Table}
    {row : Row} {seen : ℕ} (hextends : Extends secret m.table t row seen) {record : Record}
    {hash : String} (hrow : row.content = (record, .text hash)) :
    (∀ r ∈ m.appended ++ [(record, hash)], (r.1, Cell.text r.2) ∈ t.rows.map Row.content) ∧
      (m.appended ++ [(record, hash)]).Nodup := by
  constructor
  · intro r hr
    rcases List.mem_append.mp hr with hr | hr
    · exact h.appended_publish hextends r hr
    · obtain rfl := List.mem_singleton.mp hr
      rw [hextends.rows, List.map_append, List.mem_append]
      exact .inr (List.mem_singleton.mpr hrow.symm)
  · rw [List.nodup_append]
    refine ⟨h.appendedOnce, List.nodup_singleton _, ?_⟩
    rintro r hr r' hr' rfl
    obtain rfl : r = (record, hash) := List.mem_singleton.mp hr'
    obtain ⟨row', hrow', heq⟩ := List.mem_map.mp (h.appended _ hr)
    apply hextends.new
    rw [(Prod.mk.inj hrow).2, ← (Prod.mk.inj heq).2]
    exact List.mem_map_of_mem hrow'

/-- What a turn can do: a caller moves on, loses what it had pending, takes the write lock for a new
row, or publishes the row that it has pending. -/
inductive Moves (secret : List UInt8) (m : Machine Caller) :
    Turn Caller → Machine Caller → Prop where
  | move {e : Turn Caller} (c : Caller) {p : Position} : CommitsFresh m e →
      (∀ e seen, p = .genesis e seen → seen = 0) →
      (∀ e prev seen, p = .insert e prev seen →
        seen ≤ m.table.rows.length ∧ prev = lastHash (m.table.rows.take seen)) →
      p.committing = none → Moves secret m e (m.move c p)
  | abort (c : Caller) : Moves secret m (.abort c)
      { m.move c .idle with pending := m.pending.filter fun p => decide (p.1 ≠ c) }
  | insert {e : Turn Caller} {m' : Machine Caller} (c : Caller) {record : Record} {hash : String}
      {next : Position} {seen : ℕ} : CommitsFresh m e →
      computeEntryHash secret record = some hash → seen ≤ m.table.rows.length →
      record.prevHash = lastHash (m.table.rows.take seen) → next.committing = some seen →
      (∀ record' hash', next = .commit record' hash' seen → record' = record ∧ hash' = hash) →
      m.insert c record hash next = some m' → Moves secret m e m'
  | publish {c : Caller} {now : String} {seen : ℕ} {t : Table} {row : Row} {next : Position}
      {appended : List (Record × String)} : (m.position c).committing = some seen →
      Extends secret m.table t row seen → (next = .idle ∨ ∃ e, next = .last e) →
      (∀ r ∈ appended, (r.1, Cell.text r.2) ∈ t.rows.map Row.content) → appended.Nodup →
      Moves secret m (.statement c now)
        { ({ m with table := t, pending := none } : Machine Caller).move c next with
          appended := appended }

theorem turn_moves {m m' : Machine Caller} {e : Turn Caller} (h : Consistent secret m)
    (hturn : Turns secret m e m') : Moves secret m e m' := by
  cases e with
  | start c e =>
    simp only [Turns, turn] at hturn
    split at hturn
    · obtain rfl := Option.some.inj hturn
      exact .move c trivial nofun nofun rfl
    · cases hturn
  | abort c =>
    obtain rfl := Option.some.inj hturn
    exact .abort c
  | statement c now =>
    have hnothing (hp : (m.position c).committing = none) : CommitsFresh m (.statement c now) := by
      intro seen hseen
      rw [hp] at hseen
      cases hseen
    simp only [Turns, turn] at hturn
    cases hp : m.position c with
    | idle =>
      rw [hp] at hturn
      cases hturn
    | count e =>
      have hfresh := hnothing (by rw [hp]; rfl)
      simp only [hp, statement] at hturn
      split_ifs at hturn with hempty
      · obtain rfl := Option.some.inj hturn
        refine .move c hfresh ?_ nofun rfl
        intro e' seen heq
        obtain ⟨-, rfl⟩ := Position.genesis.inj heq
        rw [hempty]
        rfl
      · obtain rfl := Option.some.inj hturn
        exact .move c hfresh nofun nofun rfl
    | genesis e seen =>
      have hfresh := hnothing (by rw [hp]; rfl)
      simp only [hp, statement] at hturn
      obtain rfl := h.counted c e seen hp
      split at hturn
      · obtain rfl := Option.some.inj hturn
        exact .move c hfresh nofun nofun rfl
      · rename_i hash hsign
        refine .insert c hfresh hsign (Nat.zero_le _) rfl rfl ?_ hturn
        intro _ _ heq
        cases heq
    | commitInit e seen =>
      simp only [hp, statement] at hturn
      cases seen with
      | none =>
        have hfresh := hnothing (by rw [hp]; rfl)
        obtain rfl := Option.some.inj hturn
        cases e with
        | none => exact .move c hfresh nofun nofun rfl
        | some e => exact .move c hfresh nofun nofun rfl
      | some seen =>
        have hcommitting : (m.position c).committing = some seen := by rw [hp]; rfl
        obtain ⟨m₁, hm₁, rfl⟩ := Option.map_eq_some_iff.mp hturn
        obtain ⟨t, row, hextends, rfl, -⟩ := commit_cases h hcommitting hm₁
        apply Moves.publish hcommitting hextends _ (h.appended_publish hextends) h.appendedOnce
        cases e with
        | none => exact .inl rfl
        | some e => exact .inr ⟨e, rfl⟩
    | last e =>
      have hfresh := hnothing (by rw [hp]; rfl)
      simp only [hp, statement] at hturn
      obtain rfl := Option.some.inj hturn
      refine .move c hfresh nofun ?_ rfl
      intro e' prev seen heq
      obtain ⟨-, rfl, rfl⟩ := Position.insert.inj heq
      exact ⟨le_rfl, by rw [List.take_length]⟩
    | insert e prev seen =>
      have hfresh := hnothing (by rw [hp]; rfl)
      simp only [hp, statement] at hturn
      obtain ⟨hle, hprev⟩ := h.read c e prev seen hp
      split at hturn
      · obtain rfl := Option.some.inj hturn
        exact .move c hfresh nofun nofun rfl
      · rename_i hash hsign
        by_cases hscore : ¬ e.Storable
        · rw [if_pos hscore] at hturn
          obtain rfl := Option.some.inj hturn
          exact .move c hfresh nofun nofun rfl
        · rw [if_neg hscore] at hturn
          refine .insert c hfresh hsign hle hprev rfl ?_ hturn
          intro record' hash' heq
          obtain ⟨rfl, rfl, -⟩ := Position.commit.inj heq
          exact ⟨rfl, rfl⟩
    | commit record hash seen =>
      simp only [hp, statement] at hturn
      have hcommitting : (m.position c).committing = some seen := by rw [hp]; rfl
      obtain ⟨m₁, hm₁, rfl⟩ := Option.map_eq_some_iff.mp hturn
      obtain ⟨t, row, hextends, rfl, hcontent⟩ := commit_cases h hcommitting hm₁
      obtain ⟨hpublished, honce⟩ := h.appended_returned hextends (hcontent record hash hp)
      exact Moves.publish hcommitting hextends (.inl rfl) hpublished honce

theorem turn_consistent {m m' : Machine Caller} {e : Turn Caller} (h : Consistent secret m)
    (hturn : Turns secret m e m') : Consistent secret m' := by
  cases turn_moves h hturn with
  | move c _ hgenesis hinsert hcommit => exact h.move c hgenesis hinsert hcommit
  | abort c => exact h.abort c
  | insert c _ hsign hseen hprev hnext hcontent hstep =>
    exact h.insert hsign hseen hprev hnext hcontent hstep
  | publish hp hextends hnext hpublished honce => exact h.publish hp hextends hnext hpublished honce

theorem run_consistent {m : Machine Caller} {es : List (Turn Caller)}
    (h : Run (Turns secret) fresh es m) : Consistent secret m :=
  h.invariant (fun _ _ _ hold hturn => turn_consistent hold hturn) .fresh

theorem insert_rows {m m' : Machine Caller} {c : Caller} {record : Record} {hash : String}
    {next : Position} (h : m.insert c record hash next = some m') :
    m'.table.rows = m.table.rows := by
  unfold Machine.insert at h
  repeat' split at h
  · cases h
  all_goals
    obtain rfl := Option.some.inj h
    rfl

theorem turn_rows {m m' : Machine Caller} {e : Turn Caller} (h : Consistent secret m)
    (hturn : Turns secret m e m') : (m'.table.rows = m.table.rows ∧ CommitsFresh m e) ∨
      ∃ c now seen t row, e = .statement c now ∧ (m.position c).committing = some seen ∧
        Extends secret m.table t row seen ∧ m'.table.rows = m.table.rows ++ [row] := by
  cases turn_moves h hturn with
  | move c hfresh => exact .inl ⟨rfl, hfresh⟩
  | abort c => exact .inl ⟨rfl, trivial⟩
  | insert c hfresh _ _ _ _ _ hstep => exact .inl ⟨insert_rows hstep, hfresh⟩
  | publish hp hextends =>
    exact .inr ⟨_, _, _, _, _, rfl, hp, hextends, hextends.rows⟩

theorem run_rows_prefix {u m : Machine Caller} {es : List (Turn Caller)} (h : Consistent secret u)
    (hrun : Run (Turns secret) u es m) : u.table.rows <+: m.table.rows := by
  have hboth : Consistent secret m ∧ u.table.rows <+: m.table.rows := by
    apply hrun.invariant (I := fun m => Consistent secret m ∧ u.table.rows <+: m.table.rows) _
      ⟨h, List.prefix_rfl⟩
    rintro m e m' ⟨hm, hprefix⟩ hturn
    refine ⟨turn_consistent hm hturn, hprefix.trans ?_⟩
    rcases turn_rows hm hturn with ⟨hsame, -⟩ | ⟨_, _, _, _, row, -, -, -, hrows⟩
    · rw [hsame]
    · rw [hrows]
      exact List.prefix_append _ _
  exact hboth.2

omit [DecidableEq Caller] in
theorem Consistent.genesis_not_mem {m : Machine Caller} (h : Consistent secret m) :
    Cell.text GENESIS_PREV_HASH ∉ m.table.rows.map Row.entryHash := by
  intro hmem
  obtain ⟨row, hrow, heq⟩ := List.mem_map.mp hmem
  obtain ⟨hash, hsign, hentry⟩ := h.rowsSealed row hrow
  obtain ⟨text, -, rfl⟩ := Option.map_eq_some_iff.mp hsign
  exact sign_ne_genesis secret text (Cell.text.inj (hentry.symm.trans heq))

theorem chained_iff_commits_fresh {m : Machine Caller} {es : List (Turn Caller)}
    (h : Run (Turns secret) fresh es m) :
    Chained (.text GENESIS_PREV_HASH) m.table.rows ↔
      ∀ before e after u, es = before ++ e :: after → Run (Turns secret) fresh before u →
        CommitsFresh u e := by
  constructor
  · rintro hchained before e after u rfl hu
    obtain ⟨u', hu', hrest⟩ := run_append_iff.mp h
    obtain ⟨v, hturn, hafter⟩ := run_cons_iff.mp hrest
    obtain rfl : u' = u := by
      apply hu'.unique _ hu
      exact fun _ _ _ _ ht ht' => Option.some.inj (ht.symm.trans ht')
    have hconsistent := run_consistent hu
    rcases turn_rows hconsistent hturn with ⟨-, hfresh⟩ | ⟨c, now, seen, t, row, rfl, hc,
      hext, hrows⟩
    · exact hfresh
    · intro seen' hcommitting
      obtain rfl := Option.some.inj (hc.symm.trans hcommitting)
      obtain ⟨rest, hall⟩ := run_rows_prefix (turn_consistent hconsistent hturn) hafter
      rw [← hall, hrows] at hchained
      have hlink := (linked_concat.mp (linked_append.mp hchained).1).2
      exact length_of_lastTag_take hconsistent.hashes hconsistent.genesis_not_mem hext.seen_le
        (hext.prevHash.symm.trans hlink)
  · intro hfresh
    have hboth : Consistent secret m ∧ Chained (.text GENESIS_PREV_HASH) m.table.rows := by
      apply (h.restrict hfresh).invariant
        (I := fun m => Consistent secret m ∧ Chained (.text GENESIS_PREV_HASH) m.table.rows) _
        ⟨.fresh, trivial⟩
      rintro m e m' ⟨hm, hchained⟩ ⟨hturn, hfresh⟩
      refine ⟨turn_consistent hm hturn, ?_⟩
      rcases turn_rows hm hturn with ⟨hsame, -⟩ | ⟨c, now, seen, t, row, rfl, hc, hext, hrows⟩
      · rw [hsame]
        exact hchained
      · rw [hrows]
        refine linked_concat.mpr ⟨hchained, hext.prevHash.trans ?_⟩
        rw [hfresh seen hc, List.take_length]
        rfl
    exact hboth.2

/-- After any run of statements the log verifies intact and holds every entry that was returned
exactly once, if and only if no commit of a row came after a commit that its call had not seen. -/
theorem intact_iff_commits_fresh {m : Machine Caller} {es : List (Turn Caller)}
    (h : Run (Turns secret) fresh es m) :
    ((∀ now, isChainIntact secret m.table now = some true) ∧ m.appended.Nodup ∧
        ∀ r ∈ m.appended, (m.table.rows.map Row.content).count (r.1, Cell.text r.2) = 1) ↔
      ∀ before e after u, es = before ++ e :: after → Run (Turns secret) fresh before u →
        CommitsFresh u e := by
  have hconsistent := run_consistent h
  rw [← chained_iff_commits_fresh h]
  constructor
  · rintro ⟨hintact, -⟩
    by_cases hempty : m.table.rows = []
    · rw [hempty]
      trivial
    · have hchained := (isChainIntact_iff.mp (hintact "")).2
      rwa [initDb, if_neg hempty] at hchained
  · intro hchained
    refine ⟨fun now => ?_, hconsistent.appendedOnce, fun r hr => ?_⟩
    · rw [isChainIntact_iff]
      rcases initDb_cases secret m.table now with heq | ⟨hempty, hash, hsign, hinsert⟩
      · rw [heq]
        exact ⟨hconsistent.rowsSealed, hchained⟩
      · rw [(insert?_eq_some hinsert).2.1, hempty, List.nil_append]
        refine ⟨fun row hrow => ?_, rfl, trivial⟩
        exact List.mem_singleton.mp hrow ▸ ⟨hash, hsign, rfl⟩
    · apply List.count_eq_one_of_mem _ (hconsistent.appended r hr)
      apply List.Nodup.of_map Prod.snd
      rw [List.map_map]
      exact hconsistent.hashes

end

def twoGenesis : List (Turn ℕ) := [
  .start 0 none, .statement 0 "t0",
  .start 1 none, .statement 1 "t0",
  .statement 0 "t1", .statement 0 "t1",
  .statement 1 "t2", .statement 1 "t2"]

theorem twoGenesis_run : ∃ m : Machine ℕ, Run (Turns auditSecret) fresh twoGenesis m ∧
    m.table.rows.map (fun r => r.record.prevHash) =
      [.text GENESIS_PREV_HASH, .text GENESIS_PREV_HASH] := by
  have hrun : (twoGenesis.foldlM (fun m e => if True then turn auditSecret m e else none)
      (fresh : Machine ℕ)).any (fun m => decide (m.table.rows.map (fun r => r.record.prevHash) =
        [.text GENESIS_PREV_HASH, .text GENESIS_PREV_HASH])) = true := by decide +kernel
  obtain ⟨m, hm, hprev⟩ := (Option.any_eq_true _ _).mp hrun
  exact ⟨m, (run_iff_foldlM.mpr hm).mono fun _ _ _ hstep => hstep.1, of_decide_eq_true hprev⟩

theorem not_chained_of_two_genesis {m : Machine ℕ} (h : Consistent auditSecret m)
    (hprev : m.table.rows.map (fun r => r.record.prevHash) =
      [.text GENESIS_PREV_HASH, .text GENESIS_PREV_HASH]) :
    ¬ Chained (.text GENESIS_PREV_HASH) m.table.rows := by
  intro hchained
  have hgenesis := h.genesis_not_mem
  match hrows : m.table.rows with
  | [] => simp [hrows] at hprev
  | [_] => simp [hrows] at hprev
  | r :: r' :: rest =>
    rw [hrows] at hprev hchained hgenesis
    obtain ⟨-, hlink, -⟩ := hchained
    have hsecond : r'.record.prevHash = .text GENESIS_PREV_HASH :=
      (List.cons.inj (List.cons.inj hprev).2).1
    apply hgenesis
    rw [hsecond.symm.trans hlink]
    exact List.mem_map_of_mem List.mem_cons_self

theorem two_inits_break_chain :
    ¬ ∀ (es : List (Turn ℕ)) (m : Machine ℕ), Run (Turns auditSecret) fresh es m →
      (∀ now, isChainIntact auditSecret m.table now = some true) ∧ m.appended.Nodup ∧
        ∀ r ∈ m.appended, (m.table.rows.map Row.content).count (r.1, Cell.text r.2) = 1 := by
  intro h
  obtain ⟨m, hm, hprev⟩ := twoGenesis_run
  apply not_chained_of_two_genesis (run_consistent hm) hprev
  have hchained := (isChainIntact_iff.mp ((h twoGenesis m hm).1 "")).2
  rw [initDb, if_neg] at hchained
  · exact hchained
  · intro hempty
    simp [hempty] at hprev

/-- Two callers overlap: one writes the genesis row, and the other, which appends an entry, finds it
there. -/
def overlapping : List (Turn ℕ) := [
  .start 0 none, .start 1 (some ⟨"score_computed", "ingest", some "GWALLET", some 87, none⟩),
  .statement 0 "t0", .statement 0 "t1", .statement 0 "t1", .statement 1 "t2", .statement 1 "t2",
  .statement 1 "t3", .statement 1 "t4", .statement 1 "t4"]

theorem overlapping_run : ∃ m : Machine ℕ, m.table.rows.length = 2 ∧ overlapping.foldlM
    (fun m e => if CommitsFresh m e then turn auditSecret m e else none) fresh = some m := by
  have hrun : (overlapping.foldlM
      (fun m e => if CommitsFresh m e then turn auditSecret m e else none)
      (fresh : Machine ℕ)).any (fun m => decide (m.table.rows.length = 2)) = true := by
    decide +kernel
  obtain ⟨m, hm, hlength⟩ := (Option.any_eq_true _ _).mp hrun
  exact ⟨m, of_decide_eq_true hlength, hm⟩

theorem intact_iff_commits_fresh_two_inits :
    (∃ m : Machine ℕ, Run (Turns auditSecret) fresh overlapping m ∧ m.table.rows.length = 2 ∧
      ∀ now, isChainIntact auditSecret m.table now = some true) ∧
    ¬ ∀ before e after u, twoGenesis = before ++ e :: after →
      Run (Turns auditSecret) fresh before u → CommitsFresh u e := by
  constructor
  · obtain ⟨m, hlength, hm⟩ := overlapping_run
    have hrun : Run (Turns auditSecret) fresh overlapping m :=
      (run_iff_foldlM.mpr hm).mono fun _ _ _ hstep => hstep.1
    refine ⟨m, hrun, hlength, ((intact_iff_commits_fresh hrun).mpr ?_).1⟩
    intro before e after u hsplit hu
    rw [hsplit] at hm
    exact guard_of_foldlM hm hu
  · intro hfresh
    obtain ⟨m, hm, hprev⟩ := twoGenesis_run
    have hintact := ((intact_iff_commits_fresh hm).mpr hfresh).1 ""
    rw [isChainIntact_iff, initDb, if_neg] at hintact
    · exact not_chained_of_two_genesis (run_consistent hm) hprev hintact.2
    · intro hempty
      simp [hempty] at hprev

end AuditLogConcurrency
