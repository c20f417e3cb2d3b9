import LedgerLens.DisputeStore

/-!
# Interleaved votes

Any number of calls of `cast_vote` on one dispute, each running statement by statement on one
database. A statement that writes commits by itself, and the override, its submission and the
deletion are one transaction.
-/
namespace DisputeStore

open ChainSubmissionQueue FallibleRuns LabelledRuns SqlTables

inductive Phase where
  | started
  | admitted (row : DisputeRow) (votes : List Vote)
  | voted (row : DisputeRow) (votes : List Vote)
  | approved (row : DisputeRow) (votes : List Vote)
  | accepted
  | failed
  deriving DecidableEq

structure Session (Caller : Type) where
  db : Db
  phase : Caller → Phase

/-- A call goes on with its next statement, or ends on an error. -/
inductive Turn (Caller : Type) where
  | statement (c : Caller)
  | abort (c : Caller)

def Db.votesOf (db : Db) (disputeId : String) : List Vote :=
  ((db.loadDisputeRow disputeId).map fun r => r.committeeVotes).getD []

def Db.overridesOf (db : Db) (disputeId : String) : ℕ :=
  db.overrides.rows.countP fun o => o.disputeId = disputeId

section Statements

variable (quorum : ℤ)

/-- The next statement of a call that has not ended. -/
def statement (db : Db) (c : Ballot) : Phase → Option (Db × Phase)
  | .started =>
    match admitVote db c with
    | .error _ => some (db, .failed)
    | .ok (row, votes) => some (db, .admitted row votes)
  | .admitted row votes => some (db.writeVotes row.id votes, .voted row votes)
  | .voted row votes =>
    if Confirmed quorum votes then
      some (db.writeDisputeRow row.id .approved votes c.resolvedAt CONFIRMED_FALSE_POSITIVE,
        .approved row votes)
    else if Upheld quorum votes then
      some (db.writeDisputeRow row.id .rejected votes c.resolvedAt "upheld", .accepted)
    else some (db, .accepted)
  | .approved row _ =>
    match db.recordOverride row c with
    | .error _ => some (db, .failed)
    | .ok db' => some (db', .accepted)
  | .accepted | .failed => none

/-- What a call overwrites is what it last read or wrote: a vote finds the list that it was added
to, and a resolution finds the list that it counted, on a dispute still pending. -/
def Fresh (db : Db) : Phase → Prop
  | .admitted row _ => ∀ r ∈ db.loadDisputeRow row.disputeId, r.committeeVotes = row.committeeVotes
  | .voted row votes => Confirmed quorum votes ∨ Upheld quorum votes →
      ∀ r ∈ db.loadDisputeRow row.disputeId, r.committeeVotes = votes ∧ r.status = .pending
  | _ => True

instance (db : Db) : (phase : Phase) → Decidable (Fresh quorum db phase)
  | .admitted _ _ => inferInstanceAs (Decidable (∀ r ∈ db.loadDisputeRow _, _))
  | .voted _ _ => inferInstanceAs (Decidable (_ → ∀ r ∈ db.loadDisputeRow _, _))
  | .started | .approved _ _ | .accepted | .failed => inferInstanceAs (Decidable True)

variable {Caller : Type} [DecidableEq Caller] (ballots : Caller → Ballot)

def turn (s : Session Caller) : Turn Caller → Option (Session Caller)
  | .statement c => (statement quorum s.db (ballots c) (s.phase c)).map fun next =>
      ⟨next.1, Function.update s.phase c next.2⟩
  | .abort c => some { s with phase := Function.update s.phase c .failed }

def FreshTurn (s : Session Caller) : Turn Caller → Prop
  | .statement c => Fresh quorum s.db (s.phase c)
  | .abort _ => True

instance (s : Session Caller) : (t : Turn Caller) → Decidable (FreshTurn quorum s t)
  | .statement c => inferInstanceAs (Decidable (Fresh quorum s.db (s.phase c)))
  | .abort _ => inferInstanceAs (Decidable True)

end Statements

/-- The statements of a call until it ends, with none of another call in between. -/
inductive Finishes (quorum : ℤ) (c : Ballot) : Db → Phase → Db → Phase → Prop where
  | ended {db : Db} {phase : Phase} : statement quorum db c phase = none →
      Finishes quorum c db phase db phase
  | step {db db' db'' : Db} {phase phase' phase'' : Phase} :
      statement quorum db c phase = some (db', phase') →
      Finishes quorum c db' phase' db'' phase'' → Finishes quorum c db phase db'' phase''

/-- A call that runs alone leaves what `castVote` commits last, and is accepted when that
returns. -/
theorem finishes_castVote (quorum : ℤ) (db : Db) (c : Ballot) :
    ∃ phase, Finishes quorum c db .started ((castVote quorum db c).commits.getLastD db) phase ∧
      (phase = .accepted ↔ ∃ d, (castVote quorum db c).outcome = .ok d) := by
  cases hadmit : admitVote db c with
  | error e =>
    refine ⟨.failed, ?_, ?_⟩
    · have hfirst : statement quorum db c .started = some (db, .failed) := by
        simp only [statement, hadmit]
      simp only [castVote, hadmit]
      exact .step hfirst (.ended rfl)
    · simp [castVote, hadmit]
  | ok admitted =>
    obtain ⟨row, votes⟩ := admitted
    have hfirst {db' : Db} {phase : Phase}
        (h : Finishes quorum c (db.writeVotes row.id votes) (.voted row votes) db' phase) :
        Finishes quorum c db .started db' phase := by
      have hread : statement quorum db c .started = some (db, .admitted row votes) := by
        simp only [statement, hadmit]
      exact .step hread (.step rfl h)
    by_cases hconfirmed : Confirmed quorum votes
    · have happrove {db' : Db} {phase : Phase} (h : Finishes quorum c
          ((db.writeVotes row.id votes).writeDisputeRow row.id .approved votes c.resolvedAt
            CONFIRMED_FALSE_POSITIVE) (.approved row votes) db' phase) :
          Finishes quorum c db .started db' phase := by
        apply hfirst
        exact .step (if_pos hconfirmed) h
      cases hrecord : ((db.writeVotes row.id votes).writeDisputeRow row.id .approved votes
          c.resolvedAt CONFIRMED_FALSE_POSITIVE).recordOverride row c with
      | error e =>
        simp only [castVote, hadmit, if_pos hconfirmed, hrecord]
        refine ⟨.failed, happrove (.step ?_ (.ended rfl)), by simp⟩
        simp only [statement, hrecord]
        rfl
      | ok cleared =>
        simp only [castVote, hadmit, if_pos hconfirmed, hrecord]
        refine ⟨.accepted, happrove (.step ?_ (.ended rfl)), by simp⟩
        simp only [statement, hrecord]
        rfl
    · by_cases hupheld : Upheld quorum votes
      · simp only [castVote, hadmit, if_neg hconfirmed, if_pos hupheld]
        refine ⟨.accepted, hfirst (.step ?_ (.ended rfl)), by simp⟩
        simp only [statement, if_neg hconfirmed, if_pos hupheld]
        rfl
      · simp only [castVote, hadmit, if_neg hconfirmed, if_neg hupheld]
        refine ⟨.accepted, hfirst (.step ?_ (.ended rfl)), by simp⟩
        simp only [statement, if_neg hconfirmed, if_neg hupheld]
        rfl

section Results

variable {quorum : ℤ} {Caller : Type} [DecidableEq Caller] {ballots : Caller → Ballot}

theorem turn_statement {s t : Session Caller} {c : Caller}
    (h : turn quorum ballots s (.statement c) = some t) :
    ∃ db phase, statement quorum s.db (ballots c) (s.phase c) = some (db, phase) ∧
      t = ⟨db, Function.update s.phase c phase⟩ := by
  obtain ⟨⟨db, phase⟩, hstatement, rfl⟩ := Option.map_eq_some_iff.mp h
  exact ⟨db, phase, hstatement, rfl⟩

theorem loadDisputeRow_update {db : Db} {rowId : ℕ} {set : ScoreDispute → ScoreDispute}
    (hset : ∀ d, (set d).disputeId = d.disputeId) (disputeId : String) :
    (db.updateDispute rowId set).loadDisputeRow disputeId =
      (db.loadDisputeRow disputeId).map fun r =>
        if r.id = rowId then ⟨set r.toScoreDispute, r.id⟩ else r := by
  have hsame : ((fun r : DisputeRow => decide (r.disputeId = disputeId)) ∘ fun r =>
      if r.id = rowId then ⟨set r.toScoreDispute, r.id⟩ else r) =
      fun r => decide (r.disputeId = disputeId) := by
    funext r
    rw [Function.comp_apply]
    split_ifs
    · rw [hset]
    · rfl
  rw [Db.loadDisputeRow, Db.loadDisputeRow, ← hsame, ← List.find?_map, hsame]
  rfl

theorem votesOf_eq {db : Db} {d : String} {r : DisputeRow} (h : db.loadDisputeRow d = some r) :
    db.votesOf d = r.committeeVotes := by
  rw [Db.votesOf, h]
  rfl

structure Grows (d : String) (db db' : Db) : Prop where
  row : ∀ r, db.loadDisputeRow d = some r → ∃ r', db'.loadDisputeRow d = some r' ∧ r'.id = r.id
  votes : ∀ v ∈ db.votesOf d, v ∈ db'.votesOf d

theorem Grows.refl (d : String) (db : Db) : Grows d db db :=
  ⟨fun r hr => ⟨r, hr, rfl⟩, fun _ hv => hv⟩

theorem Grows.update {d : String} {db : Db} {r : DisputeRow} {rowId : ℕ}
    {set : ScoreDispute → ScoreDispute} (hload : db.loadDisputeRow d = some r)
    (hid : r.id = rowId) (hset : ∀ d, (set d).disputeId = d.disputeId)
    (hvotes : ∀ v ∈ r.committeeVotes, v ∈ (set r.toScoreDispute).committeeVotes) :
    Grows d db (db.updateDispute rowId set) ∧
      (db.updateDispute rowId set).loadDisputeRow d = some ⟨set r.toScoreDispute, r.id⟩ := by
  have hload' : (db.updateDispute rowId set).loadDisputeRow d =
      some ⟨set r.toScoreDispute, r.id⟩ := by
    rw [loadDisputeRow_update hset, hload, Option.map_some, if_pos hid]
  refine ⟨⟨?_, ?_⟩, hload'⟩
  · intro r' hr'
    obtain rfl := Option.some.inj (hload.symm.trans hr')
    exact ⟨_, hload', rfl⟩
  · rw [votesOf_eq hload, votesOf_eq hload']
    exact hvotes

def Counted (db : Db) (d : String) (c : Ballot) : Prop :=
  ∃ verdict, Verdict.ofText c.vote = some verdict ∧
    ⟨c.voterKeyHash, verdict, c.votedAt⟩ ∈ db.votesOf d

def Reads (db : Db) (d : String) (row : DisputeRow) : Prop :=
  row.disputeId = d ∧ ∃ r, db.loadDisputeRow d = some r ∧ r.id = row.id

theorem Counted.mono {db db' : Db} {d : String} {c : Ballot} (h : Counted db d c)
    (hgrows : Grows d db db') : Counted db' d c := by
  obtain ⟨verdict, hverdict, hmem⟩ := h
  exact ⟨verdict, hverdict, hgrows.votes _ hmem⟩

theorem Reads.mono {db db' : Db} {d : String} {row : DisputeRow} (h : Reads db d row)
    (hgrows : Grows d db db') : Reads db' d row := by
  obtain ⟨hrow, r, hr, hid⟩ := h
  obtain ⟨r', hr', hid'⟩ := hgrows.row r hr
  exact ⟨hrow, r', hr', hid'.trans hid⟩

def Adds (row : DisputeRow) (votes : List Vote) (c : Ballot) : Prop :=
  ∃ verdict, Verdict.ofText c.vote = some verdict ∧
    votes = row.committeeVotes ++ [⟨c.voterKeyHash, verdict, c.votedAt⟩] ∧
    c.voterKeyHash ∉ row.committeeVotes.map Vote.voterKeyHash

def Holds (db : Db) (d : String) (c : Ballot) : Phase → Prop
  | .started | .failed => True
  | .admitted row votes => Reads db d row ∧ Adds row votes c
  | .voted row _ | .approved row _ => Reads db d row ∧ Counted db d c
  | .accepted => Counted db d c

theorem Holds.mono {db db' : Db} {d : String} {c : Ballot} {phase : Phase} (h : Holds db d c phase)
    (hgrows : Grows d db db') : Holds db' d c phase := by
  cases phase with
  | started => trivial
  | failed => trivial
  | admitted row votes => exact ⟨h.1.mono hgrows, h.2⟩
  | voted row votes => exact ⟨h.1.mono hgrows, h.2.mono hgrows⟩
  | approved row votes => exact ⟨h.1.mono hgrows, h.2.mono hgrows⟩
  | accepted => exact Counted.mono h hgrows

theorem admitVote_adds {db : Db} {c : Ballot} {row : DisputeRow} {votes : List Vote}
    (h : admitVote db c = .ok (row, votes)) :
    Reads db c.disputeId row ∧ Adds row votes c := by
  simp only [admitVote] at h
  split at h
  · cases h
  · rename_i verdict hverdict
    obtain ⟨-, h⟩ := guard_eq_ok.mp h
    split at h
    · cases h
    · rename_i hload
      obtain ⟨-, h⟩ := guard_eq_ok.mp h
      obtain ⟨hfresh, h⟩ := guard_eq_ok.mp h
      cases h
      refine ⟨⟨(loadDisputeRow_eq_some hload).2, _, hload, rfl⟩, verdict, hverdict, rfl, ?_⟩
      intro hmem
      obtain ⟨v, hv, heq⟩ := List.mem_map.mp hmem
      exact hfresh ⟨v, hv, heq⟩

def Phase.Approving : Phase → Prop
  | .approved _ _ => True
  | _ => False

/-- While the dispute is pending there is no override beyond those it started with, and the one
that follows an approval is owed by a single call. -/
structure ResolvedOnce (d : String) (base : ℕ) (s : Session Caller) : Prop where
  once : s.db.overridesOf d ≤ base + 1
  undecided : ∀ r, s.db.loadDisputeRow d = some r → r.status = .pending →
    s.db.overridesOf d = base ∧ ∀ c, ¬ (s.phase c).Approving
  single : ∀ c, (s.phase c).Approving →
    s.db.overridesOf d = base ∧ ∀ c', (s.phase c').Approving → c' = c

theorem ResolvedOnce.keep {d : String} {base : ℕ} {s : Session Caller} {db : Db} {c : Caller}
    {phase : Phase} (h : ResolvedOnce d base s) (hphase : ¬ phase.Approving)
    (hoverrides : db.overrides = s.db.overrides)
    (hstatus : ∀ r', db.loadDisputeRow d = some r' → r'.status = .pending →
      ∃ r, s.db.loadDisputeRow d = some r ∧ r.status = .pending) :
    ResolvedOnce d base ⟨db, Function.update s.phase c phase⟩ := by
  have hcount : db.overridesOf d = s.db.overridesOf d := by rw [Db.overridesOf, hoverrides]; rfl
  have hold (c' : Caller) (happroving : (Function.update s.phase c phase c').Approving) :
      (s.phase c').Approving := by
    by_cases heq : c' = c
    · subst heq
      rw [Function.update_self] at happroving
      exact absurd happroving hphase
    · rw [Function.update_of_ne heq] at happroving
      exact happroving
  constructor
  · exact hcount.trans_le h.once
  · intro r' hr' hpending
    obtain ⟨r, hr, hpending⟩ := hstatus r' hr' hpending
    obtain ⟨hbase, hnone⟩ := h.undecided r hr hpending
    exact ⟨hcount.trans hbase, fun c' happroving => hnone c' (hold c' happroving)⟩
  · intro c' happroving
    obtain ⟨hbase, honly⟩ := h.single c' (hold c' happroving)
    exact ⟨hcount.trans hbase, fun c'' happroving => honly c'' (hold c'' happroving)⟩

theorem ResolvedOnce.approve {d : String} {base : ℕ} {s : Session Caller} {db : Db} {c : Caller}
    {phase : Phase} {r r' : DisputeRow} (h : ResolvedOnce d base s)
    (hr : s.db.loadDisputeRow d = some r) (hpending : r.status = .pending)
    (hoverrides : db.overrides = s.db.overrides) (hr' : db.loadDisputeRow d = some r')
    (hclosed : r'.status ≠ .pending) :
    ResolvedOnce d base ⟨db, Function.update s.phase c phase⟩ := by
  have hcount : db.overridesOf d = s.db.overridesOf d := by rw [Db.overridesOf, hoverrides]; rfl
  obtain ⟨hbase, hnone⟩ := h.undecided r hr hpending
  have honly (c' : Caller) (happroving : (Function.update s.phase c phase c').Approving) :
      c' = c := by
    by_contra hne
    rw [Function.update_of_ne hne] at happroving
    exact hnone c' happroving
  constructor
  · exact hcount.trans_le h.once
  · intro r'' hr'' hpending''
    obtain rfl := Option.some.inj (hr'.symm.trans hr'')
    exact absurd hpending'' hclosed
  · intro c' happroving
    refine ⟨hcount.trans hbase, fun c'' happroving' => ?_⟩
    rw [honly c' happroving, honly c'' happroving']

theorem ResolvedOnce.record {d : String} {base : ℕ} {s : Session Caller} {db : Db} {c : Caller}
    (h : ResolvedOnce d base s) (happroving : (s.phase c).Approving)
    (hdisputes : db.disputes = s.db.disputes)
    (hcount : db.overridesOf d = s.db.overridesOf d + 1) :
    ResolvedOnce d base ⟨db, Function.update s.phase c .accepted⟩ := by
  obtain ⟨hbase, honly⟩ := h.single c happroving
  have hnone (c' : Caller) :
      ¬ (Function.update s.phase c Phase.accepted c').Approving := by
    intro happroving'
    by_cases heq : c' = c
    · rw [heq, Function.update_self] at happroving'
      exact happroving'
    · rw [Function.update_of_ne heq] at happroving'
      exact heq (honly c' happroving')
  constructor
  · exact (hcount.trans (by rw [hbase])).le
  · intro r hr hpending
    have hload : db.loadDisputeRow d = s.db.loadDisputeRow d := by
      rw [Db.loadDisputeRow, hdisputes]
      rfl
    exact absurd happroving ((h.undecided r (hload.symm.trans hr) hpending).2 c)
  · intro c' happroving'
    exact absurd happroving' (hnone c')

theorem overridesOf_recordOverride {db db' : Db} {row : DisputeRow} {c : Ballot}
    (h : db.recordOverride row c = .ok db') :
    db'.overridesOf c.disputeId = db.overridesOf c.disputeId + 1 := by
  obtain ⟨⟨key, submissions⟩, -, h⟩ := bind_eq_ok.mp h
  have hrows : db'.overrides.rows =
      db.overrides.rows ++ [override row c (db.overrides.sequence + 1)] := by
    cases h
    rfl
  rw [Db.overridesOf, Db.overridesOf, hrows, List.countP_append]
  simp [override]

/-- Every call that reported its vote as accepted has it in the list, no voter is in the list
twice, and there is at most one override more than at the start. -/
structure Tallied (ballots : Caller → Ballot) (d : String) (base : ℕ) (s : Session Caller) :
    Prop where
  voters : ((s.db.votesOf d).map Vote.voterKeyHash).Nodup
  holds : ∀ c, Holds s.db d (ballots c) (s.phase c)
  resolved : ResolvedOnce d base s

theorem holds_update {d : String} {s : Session Caller} {db : Db} {c : Caller} {phase : Phase}
    (h : ∀ c, Holds s.db d (ballots c) (s.phase c)) (hgrows : Grows d s.db db)
    (hphase : Holds db d (ballots c) phase) (c' : Caller) :
    Holds db d (ballots c') (Function.update s.phase c phase c') := by
  by_cases heq : c' = c
  · subst heq
    rw [Function.update_self]
    exact hphase
  · rw [Function.update_of_ne heq]
    exact (h c').mono hgrows

theorem Tallied.idle {d : String} {base : ℕ} {s : Session Caller} {c : Caller} {phase : Phase}
    (h : Tallied ballots d base s) (happroving : ¬ phase.Approving)
    (hphase : Holds s.db d (ballots c) phase) :
    Tallied ballots d base { s with phase := Function.update s.phase c phase } := by
  constructor
  · exact h.voters
  · exact holds_update h.holds (.refl d s.db) hphase
  · exact h.resolved.keep happroving rfl fun r hr hpending => ⟨r, hr, hpending⟩

theorem Tallied.vote {d : String} {base : ℕ} {s : Session Caller} {c : Caller} {row : DisputeRow}
    {votes : List Vote} (h : Tallied ballots d base s) (hphase : s.phase c = .admitted row votes)
    (hfresh : Fresh quorum s.db (s.phase c)) : Tallied ballots d base
      ⟨s.db.writeVotes row.id votes, Function.update s.phase c (.voted row votes)⟩ := by
  have hholds := h.holds c
  rw [hphase] at hholds hfresh
  obtain ⟨hreads, verdict, hverdict, hvotes, hnew⟩ := hholds
  obtain ⟨r, hload, hid⟩ := hreads.2
  have hsame : r.committeeVotes = row.committeeVotes := hfresh r (hreads.1 ▸ hload)
  have hkept : ∀ v ∈ r.committeeVotes, v ∈ votes := by
    intro v hv
    rw [hvotes]
    exact List.mem_append_left _ (hsame ▸ hv)
  have hwrite : Grows d s.db (s.db.writeVotes row.id votes) ∧
      (s.db.writeVotes row.id votes).loadDisputeRow d =
        some ⟨{ r.toScoreDispute with committeeVotes := votes }, r.id⟩ :=
    Grows.update hload hid (fun _ => rfl) hkept
  obtain ⟨hgrows, hload'⟩ := hwrite
  have hlist : (s.db.writeVotes row.id votes).votesOf d = votes := votesOf_eq hload'
  constructor
  · have hvoters := h.voters
    rw [votesOf_eq hload, hsame] at hvoters
    rw [hlist, hvotes, List.map_append, List.nodup_append]
    refine ⟨hvoters, List.nodup_singleton _, ?_⟩
    intro k hk k' hk' heq
    obtain rfl : k' = (ballots c).voterKeyHash := List.mem_singleton.mp hk'
    exact hnew (heq ▸ hk)
  · apply holds_update h.holds hgrows
    refine ⟨hreads.mono hgrows, verdict, hverdict, ?_⟩
    rw [hlist, hvotes]
    exact List.mem_append_right _ List.mem_cons_self
  · refine h.resolved.keep id rfl ?_
    intro r' hr' hpending
    obtain rfl := Option.some.inj (hload'.symm.trans hr')
    exact ⟨r, hload, hpending⟩

theorem Tallied.resolve {d : String} {base : ℕ} {s : Session Caller} {c : Caller} {row : DisputeRow}
    {votes : List Vote} {status : DisputeStatus} {resolvedAt : Option Instant}
    {resolution : Option String} {phase : Phase} (h : Tallied ballots d base s)
    (hphase : s.phase c = .voted row votes)
    (hfresh : ∀ r ∈ s.db.loadDisputeRow row.disputeId,
      r.committeeVotes = votes ∧ r.status = .pending)
    (hclosed : status ≠ .pending) (hkind : phase = .approved row votes ∨ phase = .accepted) :
    Tallied ballots d base ⟨s.db.writeDisputeRow row.id status votes resolvedAt resolution,
      Function.update s.phase c phase⟩ := by
  have hholds := h.holds c
  rw [hphase] at hholds
  obtain ⟨hreads, hcounted⟩ := hholds
  obtain ⟨r, hload, hid⟩ := hreads.2
  obtain ⟨hsame, hpending⟩ := hfresh r (hreads.1 ▸ hload)
  have hkept : ∀ v ∈ r.committeeVotes, v ∈ votes := by
    intro v hv
    exact hsame ▸ hv
  have hwrite : Grows d s.db (s.db.writeDisputeRow row.id status votes resolvedAt resolution) ∧
      (s.db.writeDisputeRow row.id status votes resolvedAt resolution).loadDisputeRow d =
        some ⟨{ r.toScoreDispute with
          status := status
          committeeVotes := votes
          resolvedAt := resolvedAt
          resolution := resolution }, r.id⟩ :=
    Grows.update hload hid (fun _ => rfl) hkept
  obtain ⟨hgrows, hload'⟩ := hwrite
  have hlist : (s.db.writeDisputeRow row.id status votes resolvedAt resolution).votesOf d =
      s.db.votesOf d := by
    rw [votesOf_eq hload, hsame]
    exact votesOf_eq hload'
  constructor
  · rw [hlist]
    exact h.voters
  · apply holds_update h.holds hgrows
    rcases hkind with rfl | rfl
    · exact ⟨hreads.mono hgrows, hcounted.mono hgrows⟩
    · exact hcounted.mono hgrows
  · exact h.resolved.approve hload hpending rfl hload' hclosed

theorem Tallied.record {d : String} {base : ℕ} {s : Session Caller} {db : Db} {c : Caller}
    {row : DisputeRow} {votes : List Vote} (h : Tallied ballots d base s)
    (hballot : (ballots c).disputeId = d) (hphase : s.phase c = .approved row votes)
    (hrecord : s.db.recordOverride row (ballots c) = .ok db) :
    Tallied ballots d base ⟨db, Function.update s.phase c .accepted⟩ := by
  have hholds := h.holds c
  rw [hphase] at hholds
  obtain ⟨hdisputes, -, -⟩ := recordOverride_eq_ok hrecord
  have hload : db.loadDisputeRow d = s.db.loadDisputeRow d := by
    rw [Db.loadDisputeRow, hdisputes]
    rfl
  have hlist : db.votesOf d = s.db.votesOf d := by rw [Db.votesOf, hload]; rfl
  have hgrows : Grows d s.db db := by
    refine ⟨fun r hr => ⟨r, hload.trans hr, rfl⟩, ?_⟩
    rw [hlist]
    exact fun _ hv => hv
  constructor
  · rw [hlist]
    exact h.voters
  · exact holds_update h.holds hgrows (hholds.2.mono hgrows)
  · apply h.resolved.record _ hdisputes
    · rw [← hballot]
      exact overridesOf_recordOverride hrecord
    · rw [hphase]
      trivial

theorem Tallied.turn {d : String} {base : ℕ} {s t : Session Caller} {l : Turn Caller}
    (hballots : ∀ c, (ballots c).disputeId = d) (h : Tallied ballots d base s)
    (hturn : turn quorum ballots s l = some t) (hfresh : FreshTurn quorum s l) :
    Tallied ballots d base t := by
  cases l with
  | abort c =>
    obtain rfl := Option.some.inj hturn
    exact h.idle id trivial
  | statement c =>
    obtain ⟨db, phase, hstatement, rfl⟩ := turn_statement hturn
    have hholds := h.holds c
    cases hphase : s.phase c with
    | started =>
      simp only [hphase, statement] at hstatement
      split at hstatement
      · cases hstatement
        exact h.idle id trivial
      · rename_i row votes hadmit
        cases hstatement
        apply h.idle id
        rw [← hballots c]
        exact admitVote_adds hadmit
    | admitted row votes =>
      rw [hphase] at hstatement
      cases hstatement
      exact h.vote hphase hfresh
    | voted row votes =>
      simp only [FreshTurn, hphase] at hfresh
      simp only [hphase, statement] at hstatement
      split_ifs at hstatement with hconfirmed hupheld
      · cases hstatement
        exact h.resolve hphase (hfresh (.inl hconfirmed)) (by simp) (.inl rfl)
      · cases hstatement
        exact h.resolve hphase (hfresh (.inr hupheld)) (by simp) (.inr rfl)
      · cases hstatement
        rw [hphase] at hholds
        exact h.idle id hholds.2
    | approved row votes =>
      simp only [hphase, statement] at hstatement
      split at hstatement
      · cases hstatement
        exact h.idle id trivial
      · rename_i hrecord
        cases hstatement
        exact h.record (hballots c) hphase hrecord
    | accepted =>
      rw [hphase] at hstatement
      cases hstatement
    | failed =>
      rw [hphase] at hstatement
      cases hstatement

/-- In a run whose writes all find what their call last read or wrote, every accepted vote is in
the list exactly once, no voter is in it twice, and the dispute is overridden at most once. -/
theorem votes_kept {d : String} {s t : Session Caller} {ls : List (Turn Caller)}
    (hballots : ∀ c, (ballots c).disputeId = d) (hstart : ∀ c, s.phase c = .started)
    (hvoters : ((s.db.votesOf d).map Vote.voterKeyHash).Nodup)
    (hrun : Run (fun u l v => turn quorum ballots u l = some v ∧ FreshTurn quorum u l) s ls t) :
    (∀ c, t.phase c = .accepted → ∃ verdict, Verdict.ofText (ballots c).vote = some verdict ∧
      (t.db.votesOf d).count ⟨(ballots c).voterKeyHash, verdict, (ballots c).votedAt⟩ = 1) ∧
    ((t.db.votesOf d).map Vote.voterKeyHash).Nodup ∧
    t.db.overridesOf d ≤ s.db.overridesOf d + 1 := by
  have hnone (c : Caller) : ¬ (s.phase c).Approving := by
    rw [hstart c]
    exact id
  have hinitial : Tallied ballots d (s.db.overridesOf d) s := by
    refine ⟨hvoters, fun c => ?_, ?_⟩
    · rw [hstart c]
      trivial
    · exact ⟨Nat.le_succ _, fun _ _ _ => ⟨rfl, hnone⟩, fun c hc => absurd hc (hnone c)⟩
  have htallied : Tallied ballots d (s.db.overridesOf d) t :=
    hrun.invariant (fun _ _ _ hold hstep => hold.turn hballots hstep.1 hstep.2) hinitial
  refine ⟨?_, htallied.voters, htallied.resolved.once⟩
  intro c haccepted
  have hholds := htallied.holds c
  rw [haccepted] at hholds
  obtain ⟨verdict, hverdict, hmem⟩ := hholds
  exact ⟨verdict, hverdict, List.count_eq_one_of_mem htallied.voters.of_map hmem⟩

end Results

section Examples

/-- A pending dispute without votes. -/
def disputed : Db :=
  (scored true).addDispute (newDispute ⟨"G", "XLM/USDC", none, "d", 1, 1⟩ 90 "tx")

def approving (c : Fin 4) : Ballot :=
  ⟨"d", .ofList (.replicate 64 (['a', 'b', 'c', 'd'].get c)), "approve", 2, 3, 4, 5⟩

/-- Three votes one after another, the third of which approves. -/
def inTurn : List (Turn (Fin 4)) :=
  [0, 0, 0, 1, 1, 1, 2, 2, 2, 2].map .statement

/-- Two calls read the empty list before either writes. -/
def overlapping : List (Turn (Fin 4)) :=
  [0, 1, 0, 1, 0, 1].map .statement

def opened : Session (Fin 4) := ⟨disputed, fun _ => .started⟩

theorem votes_kept_in_turn : ∃ t : Session (Fin 4),
    t.db.overridesOf "d" = 1 ∧
    (∀ c, t.phase c = .accepted → ∃ verdict, Verdict.ofText (approving c).vote = some verdict ∧
      (t.db.votesOf "d").count ⟨(approving c).voterKeyHash, verdict, (approving c).votedAt⟩ = 1) ∧
    ((t.db.votesOf "d").map Vote.voterKeyHash).Nodup ∧
    t.db.overridesOf "d" ≤ opened.db.overridesOf "d" + 1 := by
  have hrun : ∃ t ∈ inTurn.foldlM (fun s l => if FreshTurn 3 s l then turn 3 approving s l
      else none) opened, t.db.overridesOf "d" = 1 := by
    decide +kernel
  obtain ⟨t, ht, honce⟩ := hrun
  exact ⟨t, honce, votes_kept (fun _ => rfl) (fun _ => rfl) (by decide) (run_iff_foldlM.mpr ht)⟩

/-- Of two overlapping votes, both accepted, the first is lost. -/
theorem overlapping_vote_lost : ¬ ∀ (quorum : ℤ) (ballots : Fin 4 → Ballot) (d : String)
    (s t : Session (Fin 4)) (ls : List (Turn (Fin 4))), (∀ c, (ballots c).disputeId = d) →
    (∀ c, s.phase c = .started) → ((s.db.votesOf d).map Vote.voterKeyHash).Nodup →
    Run (fun u l v => turn quorum ballots u l = some v) s ls t →
      ∀ c, t.phase c = .accepted → ∃ verdict, Verdict.ofText (ballots c).vote = some verdict ∧
        (t.db.votesOf d).count ⟨(ballots c).voterKeyHash, verdict, (ballots c).votedAt⟩ = 1 := by
  intro h
  have hrun : ∃ t ∈ overlapping.foldlM (fun s l => if True then turn 3 approving s l else none)
      opened, t.phase 0 = .accepted ∧
        (approving 0).voterKeyHash ∉ (t.db.votesOf "d").map Vote.voterKeyHash := by
    decide +kernel
  obtain ⟨t, ht, haccepted, habsent⟩ := hrun
  have hsteps := run_iff_foldlM.mpr ht
  obtain ⟨verdict, -, hcount⟩ := h 3 approving "d" opened t overlapping (fun _ => rfl)
    (fun _ => rfl) (by decide) (hsteps.mono fun _ _ _ hstep => hstep.1) 0 haccepted
  have hmem := List.count_pos_iff.mp (hcount.symm ▸ Nat.one_pos)
  exact habsent (List.mem_map_of_mem hmem)

end Examples

end DisputeStore
