import LedgerLens.ChainSubmissionQueue

/-!
# Retries of a chain submission

How often one row of `pending_chain_submissions` is claimed. An attempt is counted when its failure
is recorded, not when the row is claimed, so a claim that ends in a crash or outlives its lease
counts for nothing.
-/
namespace SubmissionRetries

open ChainSubmissionQueue FallibleRuns LabelledRuns SqlTables

variable {Worker : Type}

/-- A run as one row sees it: its claims, those whose failure was recorded, those that another
claim followed first, and the last one as long as neither has come. -/
structure Tally (Worker : Type) where
  world : World Worker
  claims : ℕ
  reported : ℕ
  unreported : ℕ
  claimant : Option (Worker × Job)

def Tally.waiting (s : Tally Worker) : ℕ := if s.claimant.isSome then 1 else 0

def emptyTable (hasPriority : Bool) : Table where
  hasPriority := hasPriority
  submissions := .empty
  keys_nodup := List.nodup_nil

def Tally.start (hasPriority : Bool) (clock : Instant) : Tally Worker where
  world := ChainSubmissionQueue.start (emptyTable hasPriority) clock
  claims := 0
  reported := 0
  unreported := 0
  claimant := none

/-- What a claim hands out. -/
def granted (t : Table) (now : Instant) : Option Job :=
  match claimNextDue t now with
  | .ok (job, _) => job
  | .error _ => none

section

variable (id : ℕ)

def Tally.count (s : Tally Worker) (world : World Worker) : Event Worker → Tally Worker
  | .claim w now _ =>
    match granted s.world.table now with
    | none => { s with world := world }
    | some job =>
      if job.id = id then
        { s with
          world := world
          claims := s.claims + 1
          unreported := s.unreported + s.waiting
          claimant := some (w, job) }
      else { s with world := world }
  | .recordFailure _ row _ _ _ _ =>
    if row.id = id then
      { s with world := world, reported := s.reported + 1, claimant := none }
    else { s with world := world }
  | _ => { s with world := world }

/-- A failure of the row is recorded once, by the worker that claimed it last, with what its claim
returned. -/
def ByClaimant (s : Tally Worker) : Event Worker → Prop
  | .recordFailure w row _ _ _ _ => row.id = id → s.claimant = some (w, row)
  | _ => True

variable [DecidableEq Worker]

def Tally.next (s : Tally Worker) (e : Event Worker) : Option (Tally Worker) :=
  (ChainSubmissionQueue.next s.world e).map fun world => s.count id world e

end

theorem enqueue_cases (s : World Worker) (e : Enqueue) (now : Instant) :
    (s.enqueue e now).table = s.table ∨
      ∃ n, (∀ r ∈ s.table.rows, r.id < n) ∧
        ∀ r, r ∈ (s.enqueue e now).table.rows ↔ r ∈ s.table.rows ∨ r = newRow n e now := by
  unfold World.enqueue
  split
  · exact .inl rfl
  · rename_i key t htable
    obtain ⟨-, htable⟩ := guard_eq_ok.mp htable
    split_ifs at htable
    · cases htable
      exact .inl rfl
    · cases htable
      refine .inr ⟨s.table.submissions.sequence + 1, fun r hr => ?_, fun r => IdTable.mem_insert⟩
      exact Nat.lt_succ_of_le (s.table.submissions.bounded r hr)

theorem claim_cases (s : World Worker) (w : Worker) (now : Instant) :
    (granted s.table now = none ∧ (s.claim w now).table = s.table) ∨
      ∃ row ∈ s.table.rows, Due now row ∧ granted s.table now = some row.job ∧
        ∀ r, r ∈ (s.claim w now).table.rows ↔
          r = row.lease now ∨ (r ∈ s.table.rows ∧ r.id ≠ row.id) := by
  unfold World.claim granted
  rcases htable : claimNextDue s.table now with error | ⟨job, t⟩
  · exact .inl ⟨rfl, rfl⟩
  · rcases claimNextDue_cases htable with ⟨rfl, rfl⟩ | ⟨row, hrow, hdue, rfl, hmem⟩
    · exact .inl ⟨rfl, rfl⟩
    · exact .inr ⟨row, hrow, hdue, rfl, hmem⟩

/-- The row is still owed, with so many recorded failures. -/
structure Owed (r : Row) (reported : ℕ) : Prop where
  status : r.status = .pending ∨ r.status = .inFlight
  attempts : r.attempts = reported
  room : reported = 0 ∨ (reported : ℤ) < r.maxAttempts

structure Exhausted (r : Row) (s : Tally Worker) : Prop where
  status : r.status = .deadLetter
  claimant : s.claimant = none
  reported : (s.reported : ℤ) ≤ max r.maxAttempts 1

structure Invariant (id : ℕ) (s : Tally Worker) : Prop where
  claims : s.claims = s.reported + s.unreported + s.waiting
  absent : (∀ r ∈ s.world.table.rows, r.id ≠ id) → s.claims = 0
  claimed : ∀ w job, s.claimant = some (w, job) → ∀ r ∈ s.world.table.rows, r.id = id →
    job.attempts = r.attempts ∧ job.maxAttempts = r.maxAttempts
  rows : ∀ r ∈ s.world.table.rows, r.id = id → Owed r s.reported ∨ Exhausted r s

variable {id : ℕ}

theorem waiting_le_one (s : Tally Worker) : s.waiting ≤ 1 := by
  unfold Tally.waiting
  split_ifs <;> decide

theorem Invariant.bound {s : Tally Worker} (h : Invariant id s) {r : Row}
    (hr : r ∈ s.world.table.rows) (hid : r.id = id) :
    (s.claims : ℤ) ≤ max r.maxAttempts 1 + s.unreported := by
  have hclaims := h.claims
  have hwaiting := waiting_le_one s
  rcases h.rows r hr hid with howed | hexhausted
  · rcases howed.room with hzero | hroom <;> omega
  · have hnone : s.waiting = 0 := by rw [Tally.waiting, hexhausted.claimant]; rfl
    have hreported := hexhausted.reported
    omega

theorem Invariant.frame {s : Tally Worker} (h : Invariant id s) {world : World Worker}
    (hrows : ∀ r, r.id = id → (r ∈ world.table.rows ↔ r ∈ s.world.table.rows)) :
    Invariant id { s with world := world } where
  claims := h.claims
  absent habsent := h.absent fun r hr hid => habsent r ((hrows r hid).mpr hr) hid
  claimed w job hclaimant r hr hid := h.claimed w job hclaimant r ((hrows r hid).mp hr) hid
  rows r hr hid := by
    rcases h.rows r ((hrows r hid).mp hr) hid with howed | ⟨hstatus, hclaimant, hreported⟩
    · exact .inl howed
    · exact .inr ⟨hstatus, hclaimant, hreported⟩

theorem Invariant.enqueued {s : Tally Worker} (h : Invariant id s) {world : World Worker}
    {n : ℕ} {e : Enqueue} {now : Instant} (hfresh : ∀ r ∈ s.world.table.rows, r.id < n)
    (hrows : ∀ r, r ∈ world.table.rows ↔ r ∈ s.world.table.rows ∨ r = newRow n e now) :
    Invariant id { s with world := world } := by
  by_cases hn : n = id
  · -- the row is the new one, so the run has said nothing of it so far
    have hzero : s.claims = 0 := h.absent fun r hr hid => by
      have hlt := hfresh r hr
      omega
    have hclaims := h.claims
    have hwaiting : s.waiting = 0 := by omega
    have hclaimant : s.claimant = none := by
      by_contra hsome
      rw [Tally.waiting, if_pos (Option.isSome_iff_ne_none.mpr hsome)] at hwaiting
      cases hwaiting
    refine ⟨h.claims, fun _ => hzero, fun w job hsome => ?_, fun r hr hid => .inl ?_⟩
    · rw [hclaimant] at hsome
      cases hsome
    · have hreported : s.reported = 0 := by omega
      rcases (hrows r).mp hr with hold | rfl
      · have hlt := hfresh r hold
        omega
      · exact ⟨.inl rfl, by rw [hreported]; rfl, .inl hreported⟩
  · apply h.frame
    intro r hid
    rw [hrows]
    constructor
    · rintro (hr | rfl)
      · exact hr
      · exact absurd hid hn
    · exact .inl

theorem Invariant.claim {s : Tally Worker} (h : Invariant id s) {world : World Worker} {w : Worker}
    {now : Instant} {row : Row} (hrow : row ∈ s.world.table.rows) (hdue : Due now row)
    (hid : row.id = id) (hrows : ∀ r, r ∈ world.table.rows ↔
      r = row.lease now ∨ (r ∈ s.world.table.rows ∧ r.id ≠ row.id)) :
    Invariant id { s with
      world := world
      claims := s.claims + 1
      unreported := s.unreported + s.waiting
      claimant := some (w, row.job) } := by
  have hleased : row.lease now ∈ world.table.rows := (hrows _).mpr (.inl rfl)
  have honly (r : Row) (hr : r ∈ world.table.rows) (hrid : r.id = id) : r = row.lease now := by
    rcases (hrows r).mp hr with heq | ⟨-, hne⟩
    · exact heq
    · exact absurd (hrid.trans hid.symm) hne
  constructor
  · have hclaims := h.claims
    simp only [Tally.waiting, Option.isSome_some, if_true]
    simp only [Tally.waiting] at hclaims
    omega
  · intro habsent
    exact absurd hid (habsent (row.lease now) hleased)
  · intro w' job heq r hr hrid
    obtain ⟨-, rfl⟩ := Prod.mk.inj (Option.some.inj heq)
    obtain rfl := honly r hr hrid
    exact ⟨rfl, rfl⟩
  · intro r hr hrid
    obtain rfl := honly r hr hrid
    rcases h.rows row hrow hid with howed | hexhausted
    · exact .inl ⟨.inr rfl, howed.attempts, howed.room⟩
    · rcases hdue.2 with hpending | ⟨hflight, -⟩
      · rw [hexhausted.status] at hpending
        cases hpending
      · rw [hexhausted.status] at hflight
        cases hflight

theorem mem_recordFailure_cases {t : Table} {job : Job} {error : String} {now : Instant}
    {uniform : ℚ → ℚ → ℚ} {r : Row} (hr : r ∈ (recordFailure t job error now uniform).2.rows)
    (hid : r.id = job.id) : ∃ r' ∈ t.rows, r'.id = job.id ∧ r.maxAttempts = r'.maxAttempts ∧
      ((job.maxAttempts ≤ job.attempts + 1 ∧ r.status = .deadLetter) ∨
        (job.attempts + 1 < job.maxAttempts ∧ r.status = .pending ∧
          r.attempts = job.attempts + 1)) := by
  simp only [recordFailure] at hr
  split_ifs at hr with hspent
  · obtain ⟨r', hr', rfl⟩ := List.mem_map.mp hr
    by_cases heq : r'.id = job.id
    · rw [if_pos heq]
      exact ⟨r', hr', heq, rfl, .inl ⟨hspent, rfl⟩⟩
    · rw [if_neg heq] at hid
      exact absurd hid heq
  · obtain ⟨r', hr', rfl⟩ := List.mem_map.mp hr
    by_cases heq : r'.id = job.id
    · rw [if_pos heq]
      exact ⟨r', hr', heq, rfl, .inr ⟨not_le.mp hspent, rfl, rfl⟩⟩
    · rw [if_neg heq] at hid
      exact absurd hid heq

theorem Invariant.recordFailure {s : Tally Worker} (h : Invariant id s) {world : World Worker}
    {w : Worker} {job : Job} {error : String} {now : Instant} {uniform : ℚ → ℚ → ℚ}
    (hclaimant : s.claimant = some (w, job)) (hid : job.id = id)
    (htable : world.table =
      (ChainSubmissionQueue.recordFailure s.world.table job error now uniform).2) :
    Invariant id { s with world := world, reported := s.reported + 1, claimant := none } := by
  constructor
  · have hclaims := h.claims
    simp only [Tally.waiting, hclaimant, Option.isSome_some, if_true] at hclaims
    simp only [Tally.waiting, Option.isSome_none, Bool.false_eq_true, if_false]
    omega
  · intro habsent
    apply h.absent
    intro r hr hrid
    obtain ⟨set, hset, hrows⟩ := recordFailure_cases s.world.table job error now uniform
    apply habsent (if r.id = job.id then set r else r)
    · rw [htable, hrows]
      exact List.mem_map_of_mem hr
    · rw [if_pos (hrid.trans hid.symm), (hset r).1, hrid]
  · intro _ _ heq
    cases heq
  · intro r hr hrid
    rw [htable] at hr
    obtain ⟨r', hr', hrid', hmax, hresult⟩ := mem_recordFailure_cases hr (hrid.trans hid.symm)
    have hid' : r'.id = id := hrid'.trans hid
    obtain ⟨hattempts, hjobMax⟩ := h.claimed w job hclaimant r' hr' hid'
    have howed : Owed r' s.reported := by
      rcases h.rows r' hr' hid' with howed | hexhausted
      · exact howed
      · rw [hexhausted.claimant] at hclaimant
        cases hclaimant
    have hcount := howed.attempts
    rcases hresult with ⟨hspent, hstatus⟩ | ⟨hleft, hstatus, hnext⟩
    · refine .inr ⟨hstatus, rfl, ?_⟩
      rcases howed.room with hzero | hroom
      · rw [hzero]
        exact le_max_right _ _
      · exact le_max_of_le_left (by push_cast; omega)
    · refine .inl ⟨.inl hstatus, ?_, .inr ?_⟩ <;> push_cast <;> omega

theorem invariant_start (hasPriority : Bool) (clock : Instant) :
    Invariant id (Tally.start hasPriority clock : Tally Worker) where
  claims := rfl
  absent _ := rfl
  claimed _ _ h := nomatch h
  rows _ hr := nomatch hr

section Runs

variable [DecidableEq Worker]

theorem Invariant.step {s t : Tally Worker} {e : Event Worker} (h : Invariant id s)
    (hnext : s.next id e = some t) (hby : ByClaimant id s e) : Invariant id t := by
  obtain ⟨world, hworld, rfl⟩ := Option.map_eq_some_iff.mp hnext
  cases e with
  | enqueue e now at' =>
    obtain ⟨-, heq⟩ := Option.ite_none_right_eq_some.mp hworld
    obtain rfl := Option.some.inj heq
    rcases enqueue_cases s.world e now with hsame | ⟨n, hfresh, hrows⟩
    · exact h.frame fun r _ => by rw [hsame]
    · exact h.enqueued hfresh hrows
  | claim w now at' =>
    obtain ⟨-, heq⟩ := Option.ite_none_right_eq_some.mp hworld
    obtain rfl := Option.some.inj heq
    rw [Tally.count]
    rcases claim_cases s.world w now with ⟨hnone, hsame⟩ | ⟨row, hrow, hdue, hsome, hrows⟩
    · rw [hnone]
      exact h.frame fun r _ => by rw [hsame]
    · rw [hsome]
      by_cases hid : row.job.id = id
      · simp only
        rw [if_pos hid]
        exact h.claim hrow hdue hid hrows
      · simp only
        rw [if_neg hid]
        apply h.frame
        intro r hrid
        rw [hrows]
        constructor
        · rintro (rfl | ⟨hr, -⟩)
          · exact absurd hrid hid
          · exact hr
        · intro hr
          exact .inr ⟨hr, fun heq => hid (heq.symm.trans hrid)⟩
  | crash w at' =>
    obtain ⟨-, heq⟩ := Option.ite_none_right_eq_some.mp hworld
    obtain rfl := Option.some.inj heq
    exact h.frame fun r _ => .rfl
  | succeed w row at' =>
    obtain ⟨-, heq⟩ := Option.ite_none_right_eq_some.mp hworld
    obtain rfl := Option.some.inj heq
    exact h.frame fun r _ => .rfl
  | recordFailure w row error uniform now at' =>
    obtain ⟨-, heq⟩ := Option.ite_none_right_eq_some.mp hworld
    obtain rfl := Option.some.inj heq
    rw [Tally.count]
    by_cases hid : row.id = id
    · rw [if_pos hid]
      exact h.recordFailure (hby hid) hid rfl
    · rw [if_neg hid]
      apply h.frame
      intro r hrid
      have hne : r.id ≠ row.id := fun heq => hid (heq.symm.trans hrid)
      obtain ⟨set, hset, hrows⟩ := recordFailure_cases s.world.table row error now uniform
      rw [hrows, List.mem_map]
      constructor
      · rintro ⟨r', hr', rfl⟩
        by_cases heq : r'.id = row.id
        · rw [if_pos heq] at hne
          exact absurd ((hset r').1.trans heq) hne
        · rw [if_neg heq]
          exact hr'
      · intro hr
        exact ⟨r, hr, if_neg hne⟩

/-- A row is claimed at most as often as it may be tried, and once more for each claim that another
one followed before its failure was recorded. -/
theorem claims_le_max_attempts {hasPriority : Bool} {clock : Instant} {es : List (Event Worker)}
    {s : Tally Worker}
    (h : Run (fun s e t => s.next id e = some t ∧ ByClaimant id s e)
      (Tally.start hasPriority clock) es s) :
    ∀ r ∈ s.world.table.rows, r.id = id → (s.claims : ℤ) ≤ max r.maxAttempts 1 + s.unreported := by
  have hinvariant := h.invariant (I := Invariant id)
    (fun _ _ _ hbefore hstep => hbefore.step hstep.1 hstep.2) (invariant_start hasPriority clock)
  exact fun r hr hid => hinvariant.bound hr hid

end Runs

instance (s : Tally ℕ) (e : Event ℕ) : Decidable (ByClaimant id s e) :=
  match e with
  | .recordFailure w row .. =>
    inferInstanceAs (Decidable (row.id = id → s.claimant = some (w, row)))
  | .enqueue .. | .claim .. | .crash .. | .succeed .. => isTrue trivial

/-- The submission of `oneOwed`, to be tried twice. -/
def twice : Enqueue := ⟨"dispute", 1, "GWALLET", "XLM/USDC", 2, DEFAULT_PRIORITY⟩

def twiceJob (status : Status) (attempts : ℤ) : Job :=
  { owedJob status attempts with maxAttempts := 2 }

/-- The first worker dies, the next two record their failures. -/
def deadLettered : List (Event ℕ) := [
  .enqueue twice 0 0,
  .claim 1 0 0,
  .crash 1 10,
  .claim 2 300000000 300000000,
  .recordFailure 2 (twiceJob .inFlight 0) "timeout" (fun _ _ => 0) 301000000 301000000,
  .claim 3 306000000 306000000,
  .recordFailure 3 (twiceJob .pending 1) "timeout" (fun _ _ => 0) 307000000 307000000]

theorem claims_le_max_attempts_deadLettered : ∃ s : Tally ℕ,
    (s.claims = 3 ∧ s.unreported = 1 ∧
      s.world.table.rows.map (fun r => (r.status, r.maxAttempts)) = [(.deadLetter, 2)]) ∧
    ∀ r ∈ s.world.table.rows, r.id = 1 → (s.claims : ℤ) ≤ max r.maxAttempts 1 + s.unreported := by
  have hrun : (deadLettered.foldlM (fun s e => if ByClaimant 1 s e then s.next 1 e else none)
      (Tally.start true 0)).any (fun s => decide (s.claims = 3 ∧ s.unreported = 1 ∧
        s.world.table.rows.map (fun r => (r.status, r.maxAttempts)) = [(.deadLetter, 2)])) =
      true := by
    decide +kernel
  obtain ⟨s, hs, hcounts⟩ := (Option.any_eq_true _ _).mp hrun
  exact ⟨s, of_decide_eq_true hcounts, claims_le_max_attempts (run_iff_foldlM.mpr hs)⟩

/-- Eleven workers claim the row, each at the end of the last lease, and die. -/
def crashes : List (Event ℕ) :=
  .enqueue { twice with maxAttempts := DEFAULT_MAX_ATTEMPTS } 0 0 ::
    (List.range 11).flatMap fun n =>
      [.claim n (300000000 * n) (300000000 * n), .crash n (300000000 * n)]

theorem crashes_claim_past_max_attempts :
    ¬ ∀ (hasPriority : Bool) (clock : Instant) (es : List (Event ℕ)) (s : Tally ℕ),
      Run (fun s e t => s.next 1 e = some t) (Tally.start hasPriority clock) es s →
      ∀ r ∈ s.world.table.rows, r.id = 1 → (r.status = .pending ∨ r.status = .inFlight) →
        (s.claims : ℤ) ≤ r.maxAttempts := by
  intro h
  have hrun : (crashes.foldlM (fun s e => if True then s.next 1 e else none)
      (Tally.start true 0)).any (fun s => s.world.table.rows.any fun r =>
        decide (r.id = 1 ∧ (r.status = .pending ∨ r.status = .inFlight) ∧
          r.maxAttempts < s.claims)) = true := by
    decide +kernel
  obtain ⟨s, hs, hrows⟩ := (Option.any_eq_true _ _).mp hrun
  obtain ⟨r, hr, hmore⟩ := List.any_eq_true.mp hrows
  obtain ⟨hid, hstatus, hlt⟩ := of_decide_eq_true hmore
  have hle := h true 0 crashes s ((run_iff_foldlM.mpr hs).mono fun _ _ _ hstep => hstep.1) r hr
    hid hstatus
  omega

end SubmissionRetries
