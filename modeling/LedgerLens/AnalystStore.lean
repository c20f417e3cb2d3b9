import LedgerLens.ChainSubmissionQueue
import LedgerLens.FallibleRuns
import LedgerLens.HistoricalChunks
import LedgerLens.LabelledRuns
import LedgerLens.SqlTables
import Mathlib.Data.Fintype.Basic

/-!
# Analyst claims

`detection/analyst_store.py`: claims on wallets with their locks, feedback under a claim, and the
statements of any number of analysts on one database.
-/
namespace AnalystStore

open ChainSubmissionQueue (Instant timedelta)
open HistoricalChunks (isoText)
open FallibleRuns LabelledRuns SqlTables

inductive CaseStatus where
  | assigned
  | released
  | resolved
  deriving DecidableEq, Repr

structure CaseAssignment where
  id : ℕ
  wallet : String
  assetPair : String
  analystKeyHash : String
  assignedAt : Instant
  lockExpiresAt : Instant
  status : CaseStatus
  releasedAt : Option Instant
  resolvedAt : Option Instant
  deriving DecidableEq, Repr

structure AnalystFeedback where
  id : ℕ
  wallet : String
  assetPair : String
  verdict : String
  notes : Option String
  analystKeyHash : String
  submittedAt : Instant
  reviewStartedAt : Option Instant
  deriving DecidableEq, Repr

abbrev Assignments := IdTable CaseAssignment CaseAssignment.id
abbrev Feedback := IdTable AnalystFeedback AnalystFeedback.id

/-- `analyst_lock_timeout_seconds` and `analyst_claim_max_active_per_analyst`. -/
structure Settings where
  lockTimeoutSeconds : ℤ
  claimMaxActive : ℕ

inductive StoreError where
  | valueError (message : String)
  | permissionError (message : String)
  | runtimeError (message : String)
  deriving DecidableEq, Repr

def CaseAssignment.On (wallet assetPair : String) (r : CaseAssignment) : Prop :=
  r.wallet = wallet ∧ r.assetPair = assetPair

def CaseAssignment.Active (now : Instant) (r : CaseAssignment) : Prop :=
  r.status = .assigned ∧ now < r.lockExpiresAt

def CaseAssignment.Stale (now : Instant) (r : CaseAssignment) : Prop :=
  r.status = .assigned ∧ r.lockExpiresAt ≤ now

instance (wallet assetPair : String) (r : CaseAssignment) : Decidable (r.On wallet assetPair) :=
  inferInstanceAs (Decidable (_ ∧ _))

instance (now : Instant) (r : CaseAssignment) : Decidable (r.Active now) :=
  inferInstanceAs (Decidable (_ ∧ _))

instance (now : Instant) (r : CaseAssignment) : Decidable (r.Stale now) :=
  inferInstanceAs (Decidable (_ ∧ _))

def CaseAssignment.release (now : Instant) (r : CaseAssignment) : CaseAssignment :=
  { r with status := .released, releasedAt := some now }

def CaseAssignment.resolve (now : Instant) (r : CaseAssignment) : CaseAssignment :=
  { r with status := .resolved, resolvedAt := some now }

def CaseAssignment.refresh (now lockExpires : Instant) (r : CaseAssignment) : CaseAssignment :=
  { r with lockExpiresAt := lockExpires, assignedAt := now }

structure ClaimRecord where
  wallet : String
  assetPair : String
  analystKeyHash : String
  assignedAt : Instant
  lockExpiresAt : Instant
  deriving DecidableEq, Repr

def ClaimRecord.row (c : ClaimRecord) (id : ℕ) : CaseAssignment where
  id := id
  wallet := c.wallet
  assetPair := c.assetPair
  analystKeyHash := c.analystKeyHash
  assignedAt := c.assignedAt
  lockExpiresAt := c.lockExpiresAt
  status := .assigned
  releasedAt := none
  resolvedAt := none

theorem row_id (c : ClaimRecord) (id : ℕ) : (c.row id).id = id := rfl

/-- One immediate transaction, which no other write comes between. -/
def claimWallet (cfg : Settings) (t : Assignments) (wallet assetPair analystKeyHash : String)
    (lockTimeoutSeconds : Option ℤ) (now : Instant) :
    Except StoreError (ClaimRecord × Assignments) :=
  let timeout := lockTimeoutSeconds.getD cfg.lockTimeoutSeconds
  let lockExpires := now + timedelta timeout
  let activeCount := t.rows.countP fun r =>
    decide (r.analystKeyHash = analystKeyHash ∧ r.Active now)
  let claim : ClaimRecord := ⟨wallet, assetPair, analystKeyHash, now, lockExpires⟩
  if cfg.claimMaxActive ≤ activeCount then
    throw (.permissionError
      s!"Analyst already holds {activeCount} active claims (max {cfg.claimMaxActive})")
  else
    match t.rows.find? fun r => decide (r.On wallet assetPair ∧ r.Active now) with
    | some existing =>
      if existing.analystKeyHash ≠ analystKeyHash then
        let expiry := isoText existing.lockExpiresAt
        throw (.runtimeError s!"Already claimed by {existing.analystKeyHash} until {expiry}")
      else
        pure (claim, t.update
          (fun r => r.On wallet assetPair ∧ r.analystKeyHash = analystKeyHash ∧ r.Active now)
          (CaseAssignment.refresh now lockExpires) fun _ => rfl)
    | none =>
      let t' := t.update (fun r => r.On wallet assetPair ∧ r.Stale now)
        (CaseAssignment.release now) fun _ => rfl
      pure (claim, t'.insert claim.row (row_id claim))

def releaseWallet (t : Assignments) (wallet assetPair analystKeyHash : String) (now : Instant) :
    Assignments :=
  t.update (fun r => r.On wallet assetPair ∧ r.analystKeyHash = analystKeyHash ∧ r.Active now)
    (CaseAssignment.release now) fun _ => rfl

def resolveClaim (t : Assignments) (wallet assetPair analystKeyHash : String) (now : Instant) :
    Assignments :=
  t.update (fun r => r.On wallet assetPair ∧ r.analystKeyHash = analystKeyHash ∧ r.Active now)
    (CaseAssignment.resolve now) fun _ => rfl

def expireStaleLocks (t : Assignments) (now : Instant) : Assignments :=
  t.update (fun r => r.Stale now) (CaseAssignment.release now) fun _ => rfl

def getActiveClaim (t : Assignments) (wallet assetPair : String) (now : Instant) :
    Option CaseAssignment :=
  ((t.rows.filter fun r => decide (r.On wallet assetPair ∧ r.Active now)).mergeSort
    fun a b => decide (b.assignedAt ≤ a.assignedAt)).head?

def VALID_VERDICTS : List String := ["confirmed_wash", "false_positive", "needs_review"]

structure Submission where
  wallet : String
  assetPair : String
  verdict : String
  notes : Option String
  analystKeyHash : String
  reviewStartedAt : Option Instant
  requireClaim : Bool
  deriving DecidableEq, Repr

/-- What `submit_analyst_feedback` does before it writes: the claim that it finds, where it asks
for one. -/
def checkClaim (t : Assignments) (sub : Submission) (now : Instant) :
    Except StoreError (Option CaseAssignment) :=
  if sub.verdict ∉ VALID_VERDICTS then
    throw (.valueError (s!"Invalid verdict '{sub.verdict}'. Must be one of " ++
      "['confirmed_wash', 'false_positive', 'needs_review']"))
  else if sub.requireClaim = true then
    match getActiveClaim t sub.wallet sub.assetPair now with
    | none => throw (.permissionError ("No active claim on this wallet. " ++
        "Claim it first via POST /analyst/wallet/\x7bwallet\x7d/claim"))
    | some claim =>
      if claim.analystKeyHash ≠ sub.analystKeyHash then
        let holder := String.ofList (claim.analystKeyHash.toList.take 8)
        throw (.runtimeError s!"Wallet is claimed by another analyst (hash {holder}…)")
      else pure (some claim)
  else pure none

def Submission.row (sub : Submission) (now : Instant) (id : ℕ) : AnalystFeedback where
  id := id
  wallet := sub.wallet
  assetPair := sub.assetPair
  verdict := sub.verdict
  notes := sub.notes
  analystKeyHash := sub.analystKeyHash
  submittedAt := now
  reviewStartedAt := sub.reviewStartedAt

theorem Submission.row_id (sub : Submission) (now : Instant) (id : ℕ) :
    (sub.row now id).id = id := rfl

/-- Where a call of `submit_analyst_feedback` stands. -/
inductive Phase where
  | started
  | checked (claim : Option CaseAssignment)
  | stored
  | finished
  | refused (error : StoreError)
  deriving DecidableEq, Repr

structure Service (Call : Type) where
  assignments : Assignments
  feedback : Feedback
  clock : Instant
  phase : Call → Phase

def Service.initial (Call : Type) (clock : Instant) : Service Call :=
  ⟨.empty, .empty, clock, fun _ => .started⟩

inductive Statement (Call : Type) where
  | claimWallet (wallet assetPair analystKeyHash : String) (lockTimeoutSeconds : Option ℤ)
  | releaseWallet (wallet assetPair analystKeyHash : String)
  | resolveClaim (wallet assetPair analystKeyHash : String)
  | expireStaleLocks
  | check (c : Call)
  | store (c : Call)
  | settle (c : Call)

structure Event (Call : Type) where
  statement : Statement Call
  now : Instant
  time : Instant

section Steps

variable (cfg : Settings) {Call : Type} (calls : Call → Submission)

/-- The table of claims after a statement; one that raises leaves it as it is. -/
def assignmentsAfter (t : Assignments) (statement : Statement Call) (now : Instant) :
    Assignments :=
  match statement with
  | .claimWallet wallet assetPair analystKeyHash lockTimeoutSeconds =>
    match claimWallet cfg t wallet assetPair analystKeyHash lockTimeoutSeconds now with
    | .ok (_, t') => t'
    | .error _ => t
  | .releaseWallet wallet assetPair analystKeyHash =>
    releaseWallet t wallet assetPair analystKeyHash now
  | .resolveClaim wallet assetPair analystKeyHash =>
    resolveClaim t wallet assetPair analystKeyHash now
  | .expireStaleLocks => expireStaleLocks t now
  | .settle c =>
    if (calls c).requireClaim = true then
      resolveClaim t (calls c).wallet (calls c).assetPair (calls c).analystKeyHash now
    else t
  | .check _ | .store _ => t

variable [DecidableEq Call]

def callAfter (s : Service Call) (statement : Statement Call) (now : Instant) :
    Option ((Call → Phase) × Feedback) :=
  match statement with
  | .check c =>
    if s.phase c = .started then
      match checkClaim s.assignments (calls c) now with
      | .ok claim => some (Function.update s.phase c (.checked claim), s.feedback)
      | .error error => some (Function.update s.phase c (.refused error), s.feedback)
    else none
  | .store c =>
    match s.phase c with
    | .checked _ => some (Function.update s.phase c .stored,
        s.feedback.insert ((calls c).row now) ((calls c).row_id now))
    | _ => none
  | .settle c =>
    if s.phase c = .stored then some (Function.update s.phase c .finished, s.feedback) else none
  | _ => some (s.phase, s.feedback)

def next (s : Service Call) (e : Event Call) : Option (Service Call) :=
  if e.time < s.clock ∨ e.time < e.now then none
  else
    (callAfter calls s e.statement e.now).map fun (phase, feedback) => {
      assignments := assignmentsAfter cfg calls s.assignments e.statement e.now
      feedback := feedback
      clock := e.time
      phase := phase }

def Steps (s : Service Call) (e : Event Call) (s' : Service Call) : Prop :=
  next cfg calls s e = some s'

/-- A submission is between its check, which found a claim, and its write. -/
def Pending (s : Service Call) (c : Call) (wallet assetPair analystKeyHash : String) : Prop :=
  (∃ claim, s.phase c = .checked claim) ∧
    (calls c).wallet = wallet ∧ (calls c).assetPair = assetPair ∧
      (calls c).analystKeyHash = analystKeyHash

/-- A submission requires a claim, its analyst does not release or resolve that claim between the
check and the write, and the claim's lock has not run out when the write takes effect. -/
def Careful (s : Service Call) (e : Event Call) : Prop :=
  match e.statement with
  | .check c => (calls c).requireClaim = true
  | .releaseWallet wallet assetPair analystKeyHash
  | .resolveClaim wallet assetPair analystKeyHash =>
    ∀ c, ¬ Pending calls s c wallet assetPair analystKeyHash
  | .settle c => ∀ c', ¬ Pending calls s c' (calls c).wallet (calls c).assetPair
      (calls c).analystKeyHash
  | .store c =>
    match s.phase c with
    | .checked (some claim) =>
      ∀ r ∈ s.assignments.rows, r.id = claim.id → e.time < r.lockExpiresAt
    | _ => True
  | _ => True

instance (s : Service Call) (c : Call) (wallet assetPair analystKeyHash : String) :
    Decidable (Pending calls s c wallet assetPair analystKeyHash) :=
  have : Decidable (∃ claim, s.phase c = .checked claim) :=
    match s.phase c with
    | .checked claim => isTrue ⟨claim, rfl⟩
    | .started | .stored | .finished | .refused _ => isFalse nofun
  inferInstanceAs (Decidable (_ ∧ _))

instance [Fintype Call] (s : Service Call) (e : Event Call) : Decidable (Careful calls s e) := by
  unfold Careful
  split
  case h_5 => split <;> infer_instance
  all_goals infer_instance

def CarefulSteps (s : Service Call) (e : Event Call) (s' : Service Call) : Prop :=
  Steps cfg calls s e s' ∧ Careful calls s e

end Steps

def HoldsClaim (t : Assignments) (wallet assetPair analystKeyHash : String) (time : Instant) :
    Prop :=
  ∃ r ∈ t.rows, r.On wallet assetPair ∧ r.analystKeyHash = analystKeyHash ∧ r.Active time

instance (t : Assignments) (wallet assetPair analystKeyHash : String) (time : Instant) :
    Decidable (HoldsClaim t wallet assetPair analystKeyHash time) :=
  inferInstanceAs (Decidable (∃ r ∈ t.rows, _))

def Exclusive {Call : Type} (s : Service Call) : Prop :=
  ∀ wallet assetPair now,
    s.assignments.rows.countP (fun r => decide (r.On wallet assetPair ∧ r.Active now)) ≤ 1

/-- Now and at any later time, as long as nothing is written. -/
def Capped (cfg : Settings) {Call : Type} (s : Service Call) : Prop :=
  ∀ analystKeyHash now, s.clock ≤ now →
    s.assignments.rows.countP (fun r => decide (r.analystKeyHash = analystKeyHash ∧ r.Active now)) ≤
      cfg.claimMaxActive

/-- Feedback that a step stores is that of an analyst who holds the claim at that moment. -/
def Covered {Call : Type} (s : Service Call) (e : Event Call) (s' : Service Call) : Prop :=
  ∀ f ∈ s'.feedback.rows, f ∉ s.feedback.rows →
    HoldsClaim s.assignments f.wallet f.assetPair f.analystKeyHash e.time

section Rows

variable {cfg : Settings} {Call : Type} {calls : Call → Submission}

def activeCount (t : Assignments) (analystKeyHash : String) (now : Instant) : ℕ :=
  t.rows.countP fun r => decide (r.analystKeyHash = analystKeyHash ∧ r.Active now)

def Ends (calls : Call → Submission) (statement : Statement Call)
    (wallet assetPair analystKeyHash : String) : Prop :=
  match statement with
  | .releaseWallet w p k | .resolveClaim w p k => w = wallet ∧ p = assetPair ∧ k = analystKeyHash
  | .settle c => (calls c).wallet = wallet ∧ (calls c).assetPair = assetPair ∧
      (calls c).analystKeyHash = analystKeyHash
  | _ => False

inductive RowStep (cfg : Settings) (calls : Call → Submission) (t : Assignments)
    (statement : Statement Call) (now : Instant) (r : CaseAssignment) : CaseAssignment → Prop where
  | same : RowStep cfg calls t statement now r r
  | refreshed (lockExpires : Instant) (active : r.Active now)
      (room : activeCount t r.analystKeyHash now < cfg.claimMaxActive) :
      RowStep cfg calls t statement now r (r.refresh now lockExpires)
  | expired (stale : r.Stale now) : RowStep cfg calls t statement now r (r.release now)
  | released (ends : Ends calls statement r.wallet r.assetPair r.analystKeyHash) :
      RowStep cfg calls t statement now r (r.release now)
  | resolved (ends : Ends calls statement r.wallet r.assetPair r.analystKeyHash) :
      RowStep cfg calls t statement now r (r.resolve now)

variable {t : Assignments} {statement : Statement Call} {now : Instant} {r r' : CaseAssignment}

theorem RowStep.keeps (h : RowStep cfg calls t statement now r r') : r'.id = r.id ∧
    r'.wallet = r.wallet ∧ r'.assetPair = r.assetPair ∧ r'.analystKeyHash = r.analystKeyHash := by
  cases h <;> exact ⟨rfl, rfl, rfl, rfl⟩

theorem RowStep.on_iff (h : RowStep cfg calls t statement now r r') (wallet assetPair : String) :
    r'.On wallet assetPair ↔ r.On wallet assetPair := by
  obtain ⟨-, hwallet, hpair, -⟩ := h.keeps
  rw [CaseAssignment.On, CaseAssignment.On, hwallet, hpair]

theorem RowStep.assigned (h : RowStep cfg calls t statement now r r')
    (hassigned : r'.status = .assigned) : r.status = .assigned := by
  cases h with
  | same => exact hassigned
  | refreshed _ active => exact active.1
  | expired stale => exact stale.1
  | released | resolved => cases hassigned

theorem RowStep.active (h : RowStep cfg calls t statement now r r') {time : Instant}
    (hlater : now ≤ time) (hactive : r'.Active time) : r.Active now ∧
      (r.Active time ∨ activeCount t r.analystKeyHash now < cfg.claimMaxActive) := by
  cases h with
  | same => exact ⟨⟨hactive.1, hlater.trans_lt hactive.2⟩, .inl hactive⟩
  | refreshed _ active room => exact ⟨active, .inr room⟩
  | expired | released | resolved => cases hactive.1

theorem RowStep.live (h : RowStep cfg calls t statement now r r') {clock time : Instant}
    (hends : ¬ Ends calls statement r.wallet r.assetPair r.analystKeyHash) (hclock : clock ≤ time)
    (hnow : now ≤ time) (hlive : r.status = .assigned ∨ r.lockExpiresAt ≤ clock) :
    r'.status = .assigned ∨ r'.lockExpiresAt ≤ time := by
  cases h with
  | same => exact hlive.imp_right fun hle => hle.trans hclock
  | refreshed _ active => exact .inl active.1
  | expired stale => exact .inr (stale.2.trans hnow)
  | released ends => exact absurd ends hends
  | resolved ends => exact absurd ends hends

theorem Careful.not_pending {s : Service Call} {e : Event Call} (h : Careful calls s e)
    {c : Call} {found : Option CaseAssignment} (hphase : s.phase c = .checked found)
    (hends : Ends calls e.statement (calls c).wallet (calls c).assetPair
      (calls c).analystKeyHash) : False := by
  have hcheck : ∃ claim, s.phase c = .checked claim := ⟨found, hphase⟩
  unfold Careful at h
  cases hstatement : e.statement with
  | releaseWallet | resolveClaim | settle =>
    rw [hstatement] at h hends
    obtain ⟨hwallet, hpair, hkey⟩ := hends
    exact h c ⟨hcheck, hwallet.symm, hpair.symm, hkey.symm⟩
  | claimWallet | expireStaleLocks | check | store =>
    rw [hstatement] at hends
    exact hends

/-- A statement rewrites the claims in place, and adds at most one, on a case without any. -/
structure Rewrites (cfg : Settings) (calls : Call → Submission) (t : Assignments)
    (statement : Statement Call) (now : Instant) (f : CaseAssignment → CaseAssignment)
    (added : List CaseAssignment) : Prop where
  rows : ∀ r ∈ t.rows, RowStep cfg calls t statement now r (f r)
  free : ∀ r' ∈ added, ∀ r ∈ t.rows, r.On r'.wallet r'.assetPair → (f r).status ≠ .assigned
  room : ∀ r' ∈ added, activeCount t r'.analystKeyHash now < cfg.claimMaxActive
  single : added.length ≤ 1

theorem rewrites_in_place {hit : CaseAssignment → Prop} [DecidablePred hit]
    {set : CaseAssignment → CaseAssignment}
    (h : ∀ r ∈ t.rows, hit r → RowStep cfg calls t statement now r (set r)) :
    Rewrites cfg calls t statement now (fun r => if hit r then set r else r) [] where
  rows r hr := by
    by_cases hhit : hit r
    · rw [if_pos hhit]
      exact h r hr hhit
    · rw [if_neg hhit]
      exact .same
  free _ h := nomatch h
  room _ h := nomatch h
  single := Nat.zero_le _

theorem claimWallet_rewrites {wallet assetPair key : String} {timeout : Option ℤ}
    {claim : ClaimRecord} {t' : Assignments}
    (h : claimWallet cfg t wallet assetPair key timeout now = .ok (claim, t')) :
    ∃ f added, t'.rows = t.rows.map f ++ added ∧
      Rewrites cfg calls t statement now f added := by
  obtain ⟨hfull, h⟩ := guard_eq_ok.mp h
  have hroom := not_le.mp hfull
  split at h
  · rename_i existing hexisting
    obtain ⟨-, h⟩ := guard_eq_ok.mp h
    obtain ⟨rfl, rfl⟩ := Prod.mk.inj (Except.ok.inj h)
    refine ⟨_, [], (List.append_nil _).symm, rewrites_in_place fun r _ hhit => ?_⟩
    refine .refreshed _ hhit.2.2 ?_
    rw [hhit.2.1]
    exact hroom
  · rename_i hnone
    obtain ⟨rfl, rfl⟩ := Prod.mk.inj (Except.ok.inj h)
    have hstale : Rewrites cfg calls t statement now
        (fun r => if r.On wallet assetPair ∧ r.Stale now then r.release now else r) [] :=
      rewrites_in_place fun r _ hhit => .expired hhit.2
    refine ⟨_, [_], rfl, hstale.rows, ?_, ?_, le_rfl⟩
    · intro r' hr' r hr hon
      obtain rfl := List.mem_singleton.mp hr'
      change r.On wallet assetPair at hon
      have hinactive : ¬ r.Active now := by
        intro hactive
        have := List.find?_eq_none.mp hnone r hr
        exact this (decide_eq_true ⟨hon, hactive⟩)
      by_cases hexpired : r.Stale now
      · rw [if_pos ⟨hon, hexpired⟩]
        exact nofun
      · rw [if_neg fun hboth => hexpired hboth.2]
        exact fun hassigned => (le_or_gt r.lockExpiresAt now).elim
          (fun hle => hexpired ⟨hassigned, hle⟩) fun hlt => hinactive ⟨hassigned, hlt⟩
    · intro r' hr'
      obtain rfl := List.mem_singleton.mp hr'
      exact hroom

theorem assignmentsAfter_rewrites (cfg : Settings) (calls : Call → Submission) (t : Assignments)
    (statement : Statement Call) (now : Instant) :
    ∃ f added, (assignmentsAfter cfg calls t statement now).rows = t.rows.map f ++ added ∧
      Rewrites cfg calls t statement now f added := by
  have hidle {statement : Statement Call} : ∃ f added, t.rows = t.rows.map f ++ added ∧
      Rewrites cfg calls t statement now f added := by
    refine ⟨id, [], by simp, fun r _ => .same, nofun, nofun, Nat.zero_le _⟩
  cases statement with
  | claimWallet wallet assetPair key timeout =>
    simp only [assignmentsAfter]
    cases hclaim : claimWallet cfg t wallet assetPair key timeout now with
    | error => exact hidle
    | ok result => exact claimWallet_rewrites hclaim
  | releaseWallet wallet assetPair key =>
    refine ⟨_, [], (List.append_nil _).symm, rewrites_in_place fun r _ hhit => .released ?_⟩
    exact ⟨hhit.1.1.symm, hhit.1.2.symm, hhit.2.1.symm⟩
  | resolveClaim wallet assetPair key =>
    refine ⟨_, [], (List.append_nil _).symm, rewrites_in_place fun r _ hhit => .resolved ?_⟩
    exact ⟨hhit.1.1.symm, hhit.1.2.symm, hhit.2.1.symm⟩
  | expireStaleLocks =>
    exact ⟨_, [], (List.append_nil _).symm, rewrites_in_place fun r _ hhit => .expired hhit⟩
  | settle c =>
    by_cases hrequire : (calls c).requireClaim = true
    · simp only [assignmentsAfter, if_pos hrequire]
      refine ⟨_, [], (List.append_nil _).symm, rewrites_in_place fun r _ hhit => .resolved ?_⟩
      exact ⟨hhit.1.1.symm, hhit.1.2.symm, hhit.2.1.symm⟩
    · simp only [assignmentsAfter, if_neg hrequire]
      exact hidle
  | check | store => exact hidle

theorem countP_map_le {rows : List CaseAssignment} {f : CaseAssignment → CaseAssignment}
    {p q : CaseAssignment → Prop} [DecidablePred p] [DecidablePred q]
    (h : ∀ r ∈ rows, q (f r) → p r) :
    (rows.map f).countP (fun r => decide (q r)) ≤ rows.countP fun r => decide (p r) := by
  rw [List.countP_map]
  apply List.countP_mono_left
  intro r hr hq
  exact decide_eq_true (h r hr (of_decide_eq_true hq))

def assignedCount (rows : List CaseAssignment) (wallet assetPair : String) : ℕ :=
  rows.countP fun r => decide (r.On wallet assetPair ∧ r.status = .assigned)

variable {f : CaseAssignment → CaseAssignment} {added : List CaseAssignment}

theorem Rewrites.assignedCount_le (h : Rewrites cfg calls t statement now f added)
    {wallet assetPair : String} (hbefore : assignedCount t.rows wallet assetPair ≤ 1) :
    assignedCount (t.rows.map f ++ added) wallet assetPair ≤ 1 := by
  rw [assignedCount, List.countP_append]
  by_cases hnew : ∃ r' ∈ added, r'.On wallet assetPair
  · obtain ⟨r', hr', rfl, rfl⟩ := hnew
    have hfree : (t.rows.map f).countP (fun r =>
        decide (r.On r'.wallet r'.assetPair ∧ r.status = .assigned)) = 0 := by
      rw [List.countP_eq_zero]
      intro r₁ hr₁
      obtain ⟨r, hr, rfl⟩ := List.mem_map.mp hr₁
      rw [decide_eq_true_iff, (h.rows r hr).on_iff]
      rintro ⟨hon, hassigned⟩
      exact h.free r' hr' r hr hon hassigned
    rw [hfree, Nat.zero_add]
    exact List.countP_le_length.trans h.single
  · have hnone : added.countP (fun r =>
        decide (r.On wallet assetPair ∧ r.status = .assigned)) = 0 := by
      rw [List.countP_eq_zero]
      intro r hr hboth
      exact hnew ⟨r, hr, (of_decide_eq_true hboth).1⟩
    rw [hnone, Nat.add_zero]
    refine (countP_map_le fun r hr hboth => ?_).trans hbefore
    exact ⟨((h.rows r hr).on_iff _ _).mp hboth.1, (h.rows r hr).assigned hboth.2⟩

theorem Rewrites.activeCount_le (h : Rewrites cfg calls t statement now f added)
    {key : String} {time : Instant} (hlater : now ≤ time)
    (hbefore : activeCount t key time ≤ cfg.claimMaxActive) :
    (t.rows.map f ++ added).countP (fun r => decide (r.analystKeyHash = key ∧ r.Active time)) ≤
      cfg.claimMaxActive := by
  rw [List.countP_append]
  by_cases hroom : activeCount t key now < cfg.claimMaxActive
  · -- Whatever counts at that time counted when the analyst had room for one more.
    have hkept : (t.rows.map f).countP (fun r =>
        decide (r.analystKeyHash = key ∧ r.Active time)) ≤ activeCount t key now := by
      refine countP_map_le fun r hr hboth => ?_
      obtain ⟨-, -, -, hkey⟩ := (h.rows r hr).keeps
      exact ⟨hkey.symm.trans hboth.1, ((h.rows r hr).active hlater hboth.2).1⟩
    have hadded : added.countP (fun r => decide (r.analystKeyHash = key ∧ r.Active time)) ≤ 1 :=
      List.countP_le_length.trans h.single
    omega
  · have hnone : added.countP (fun r =>
        decide (r.analystKeyHash = key ∧ r.Active time)) = 0 := by
      rw [List.countP_eq_zero]
      intro r hr hboth
      obtain ⟨rfl, -⟩ := of_decide_eq_true hboth
      exact hroom (h.room r hr)
    rw [hnone, Nat.add_zero]
    refine (countP_map_le fun r hr hboth => ?_).trans hbefore
    obtain ⟨-, -, -, hkey⟩ := (h.rows r hr).keeps
    have hsame : r.analystKeyHash = key := hkey.symm.trans hboth.1
    refine ⟨hsame, ((h.rows r hr).active hlater hboth.2).2.resolve_right ?_⟩
    rwa [hsame]

/-- At most one assigned row on a case, run out or not, and no analyst over the cap. -/
structure Guarded (cfg : Settings) (s : Service Call) : Prop where
  single : ∀ wallet assetPair, assignedCount s.assignments.rows wallet assetPair ≤ 1
  capped : Capped cfg s

theorem guarded_initial (clock : Instant) : Guarded cfg (.initial Call clock) where
  single _ _ := Nat.zero_le _
  capped _ _ _ := Nat.zero_le _

theorem Guarded.exclusive {s : Service Call} (h : Guarded cfg s) : Exclusive s := by
  intro wallet assetPair now
  refine (List.countP_mono_left fun r _ hr => ?_).trans (h.single wallet assetPair)
  obtain ⟨hon, hactive⟩ := of_decide_eq_true hr
  exact decide_eq_true ⟨hon, hactive.1⟩

variable [DecidableEq Call]

theorem steps_eq {s s' : Service Call} {e : Event Call} (h : Steps cfg calls s e s') :
    s.clock ≤ e.time ∧ e.now ≤ e.time ∧ ∃ phase feedback,
      callAfter calls s e.statement e.now = some (phase, feedback) ∧
      s' = ⟨assignmentsAfter cfg calls s.assignments e.statement e.now, feedback, e.time,
        phase⟩ := by
  obtain ⟨htimes, h⟩ := Option.ite_none_left_eq_some.mp h
  rw [not_or, not_lt, not_lt] at htimes
  obtain ⟨⟨phase, feedback⟩, hcall, heq⟩ := Option.map_eq_some_iff.mp h
  exact ⟨htimes.1, htimes.2, phase, feedback, hcall, heq.symm⟩

theorem Guarded.step {s s' : Service Call} {e : Event Call} (h : Guarded cfg s)
    (hstep : Steps cfg calls s e s') : Guarded cfg s' := by
  obtain ⟨hclock, hnow, phase, feedback, -, rfl⟩ := steps_eq hstep
  obtain ⟨f, added, hrows, hrewrites⟩ :=
    assignmentsAfter_rewrites cfg calls s.assignments e.statement e.now
  constructor
  · intro wallet assetPair
    change assignedCount (assignmentsAfter cfg calls s.assignments e.statement e.now).rows _ _ ≤ 1
    rw [hrows]
    exact hrewrites.assignedCount_le (h.single wallet assetPair)
  · intro key time htime
    change e.time ≤ time at htime
    change (assignmentsAfter cfg calls s.assignments e.statement e.now).rows.countP _ ≤ _
    rw [hrows]
    exact hrewrites.activeCount_le (hnow.trans htime) (h.capped key time (hclock.trans htime))

/-- In every run, careful or not, cases have one active claim and analysts keep to the cap. -/
theorem exclusive_and_capped {clock : Instant} {s : Service Call} {ls : List (Event Call)}
    (h : Run (Steps cfg calls) (.initial Call clock) ls s) : Exclusive s ∧ Capped cfg s := by
  have hguarded : Guarded cfg s :=
    h.invariant (fun _ _ _ hold hstep => hold.step hstep) (guarded_initial clock)
  exact ⟨hguarded.exclusive, hguarded.capped⟩

theorem mem_of_getActiveClaim {t : Assignments} {wallet assetPair : String} {now : Instant}
    {claim : CaseAssignment} (h : getActiveClaim t wallet assetPair now = some claim) :
    claim ∈ t.rows ∧ claim.On wallet assetPair ∧ claim.Active now := by
  have hmem := List.mem_mergeSort.mp (List.mem_of_mem_head? h)
  rw [List.mem_filter, decide_eq_true_iff] at hmem
  exact hmem

theorem checkClaim_ok {t : Assignments} {sub : Submission} {now : Instant}
    {found : Option CaseAssignment} (h : checkClaim t sub now = .ok found)
    (hrequire : sub.requireClaim = true) : ∃ claim ∈ t.rows, found = some claim ∧
      claim.On sub.wallet sub.assetPair ∧ claim.analystKeyHash = sub.analystKeyHash ∧
        claim.Active now := by
  obtain ⟨-, h⟩ := guard_eq_ok.mp h
  rw [if_pos hrequire] at h
  split at h
  · cases h
  · rename_i claim hclaim
    obtain ⟨hmine, h⟩ := guard_eq_ok.mp h
    obtain ⟨hmem, hon, hactive⟩ := mem_of_getActiveClaim hclaim
    obtain rfl := Except.ok.inj h
    exact ⟨claim, hmem, rfl, hon, not_not.mp hmine, hactive⟩

inductive CallStep (calls : Call → Submission) (s : Service Call) (statement : Statement Call)
    (now : Instant) : (Call → Phase) → Feedback → Prop where
  | idle : CallStep calls s statement now s.phase s.feedback
  | checked (c : Call) (found : Option CaseAssignment) (his : statement = .check c)
      (hfound : checkClaim s.assignments (calls c) now = .ok found) :
      CallStep calls s statement now (Function.update s.phase c (.checked found)) s.feedback
  | stored (c : Call) (found : Option CaseAssignment) (his : statement = .store c)
      (hphase : s.phase c = .checked found) :
      CallStep calls s statement now (Function.update s.phase c .stored)
        (s.feedback.insert ((calls c).row now) ((calls c).row_id now))
  | ended (c : Call) (phase : Phase) (hphase : ∀ found, phase ≠ .checked found) :
      CallStep calls s statement now (Function.update s.phase c phase) s.feedback

theorem callStep_of_callAfter {s : Service Call} {statement : Statement Call} {now : Instant}
    {phase : Call → Phase} {feedback : Feedback}
    (h : callAfter calls s statement now = some (phase, feedback)) :
    CallStep calls s statement now phase feedback := by
  cases statement with
  | check c =>
    obtain ⟨-, h⟩ := Option.ite_none_right_eq_some.mp h
    split at h
    · rename_i found hcheck
      obtain ⟨rfl, rfl⟩ := Prod.mk.inj (Option.some.inj h)
      exact .checked c found rfl hcheck
    · obtain ⟨rfl, rfl⟩ := Prod.mk.inj (Option.some.inj h)
      exact .ended c _ fun _ heq => Phase.noConfusion heq
  | store c =>
    simp only [callAfter] at h
    split at h
    · rename_i found hphase
      obtain ⟨rfl, rfl⟩ := Prod.mk.inj (Option.some.inj h)
      exact .stored c found rfl hphase
    · cases h
  | settle c =>
    obtain ⟨-, h⟩ := Option.ite_none_right_eq_some.mp h
    obtain ⟨rfl, rfl⟩ := Prod.mk.inj (Option.some.inj h)
    exact .ended c _ fun _ heq => Phase.noConfusion heq
  | claimWallet | releaseWallet | resolveClaim | expireStaleLocks =>
    obtain ⟨rfl, rfl⟩ := Prod.mk.inj (Option.some.inj h)
    exact .idle

def Found (calls : Call → Submission) (s : Service Call) (c : Call) (claim : CaseAssignment) :
    Prop :=
  ∃ r ∈ s.assignments.rows, r.id = claim.id ∧ r.On (calls c).wallet (calls c).assetPair ∧
    r.analystKeyHash = (calls c).analystKeyHash ∧
      (r.status = .assigned ∨ r.lockExpiresAt ≤ s.clock)

def Backed (calls : Call → Submission) (s : Service Call) : Prop :=
  ∀ c found, s.phase c = .checked found → ∃ claim, found = some claim ∧ Found calls s c claim

theorem Found.step {s s' : Service Call} {e : Event Call} {c : Call} {claim : CaseAssignment}
    {found : Option CaseAssignment} (h : Found calls s c claim)
    (hphase : s.phase c = .checked found) (hstep : CarefulSteps cfg calls s e s') :
    Found calls s' c claim := by
  obtain ⟨hclock, hnow, phase, feedback, -, rfl⟩ := steps_eq hstep.1
  obtain ⟨f, added, hrows, hrewrites⟩ :=
    assignmentsAfter_rewrites cfg calls s.assignments e.statement e.now
  obtain ⟨r, hr, hid, hon, hkey, hlive⟩ := h
  have hrow := hrewrites.rows r hr
  refine ⟨f r, ?_, ?_, (hrow.on_iff _ _).mpr hon, ?_, ?_⟩
  · change f r ∈ (assignmentsAfter cfg calls s.assignments e.statement e.now).rows
    rw [hrows]
    exact List.mem_append_left _ (List.mem_map_of_mem hr)
  · exact hrow.keeps.1.trans hid
  · exact hrow.keeps.2.2.2.trans hkey
  · refine hrow.live ?_ hclock hnow hlive
    rw [hon.1, hon.2, hkey]
    exact hstep.2.not_pending hphase

theorem Backed.step {s s' : Service Call} {e : Event Call} (h : Backed calls s)
    (hstep : CarefulSteps cfg calls s e s') : Backed calls s' := by
  intro c found hphase
  have hkept (hold : s.phase c = .checked found) :
      ∃ claim, found = some claim ∧ Found calls s' c claim := by
    obtain ⟨claim, rfl, hfound⟩ := h c found hold
    exact ⟨claim, rfl, hfound.step hold hstep⟩
  obtain ⟨-, -, phase, feedback, hcall, rfl⟩ := steps_eq hstep.1
  cases callStep_of_callAfter hcall with
  | idle => exact hkept hphase
  | checked c' found' his hcheck =>
    by_cases hc : c = c'
    · subst hc
      obtain rfl : found' = found :=
        Phase.checked.inj ((Function.update_self _ _ _).symm.trans hphase)
      have hrequire := hstep.2
      simp only [Careful, his] at hrequire
      obtain ⟨claim, hmem, rfl, hon, hkey, hactive⟩ := checkClaim_ok hcheck hrequire
      refine ⟨claim, rfl, claim, ?_, rfl, hon, hkey, .inl hactive.1⟩
      rw [his]
      exact hmem
    · exact hkept ((Function.update_of_ne hc _ _).symm.trans hphase)
  | stored c' found' his hchecked =>
    by_cases hc : c = c'
    · subst hc
      exact nomatch (Function.update_self _ _ _).symm.trans hphase
    · exact hkept ((Function.update_of_ne hc _ _).symm.trans hphase)
  | ended c' phase hother =>
    by_cases hc : c = c'
    · subst hc
      exact absurd ((Function.update_self _ _ _).symm.trans hphase) (hother found)
    · exact hkept ((Function.update_of_ne hc _ _).symm.trans hphase)

theorem Backed.covered {s s' : Service Call} {e : Event Call} (h : Backed calls s)
    (hstep : CarefulSteps cfg calls s e s') : Covered s e s' := by
  intro f hf hnew
  obtain ⟨hclock, -, phase, feedback, hcall, rfl⟩ := steps_eq hstep.1
  cases callStep_of_callAfter hcall with
  | idle | checked | ended => exact absurd hf hnew
  | stored c found his hchecked =>
    obtain ⟨claim, rfl, r, hr, hid, hon, hkey, hlive⟩ := h c found hchecked
    have hunexpired := hstep.2
    simp only [Careful, his, hchecked] at hunexpired
    have hlater := hunexpired r hr hid
    have hassigned := hlive.resolve_right (not_le.mpr (hclock.trans_lt hlater))
    rcases List.mem_append.mp hf with hold | hf
    · exact absurd hold hnew
    · obtain rfl := List.mem_singleton.mp hf
      exact ⟨r, hr, hon, hkey, hassigned, hlater⟩

/-- Where no claim that a submission found ends between its check and its write, feedback is
stored under the claim; one claim a case and the cap hold anyway. -/
theorem feedback_under_claim {clock : Instant} {s s' : Service Call} {e : Event Call}
    {ls : List (Event Call)} (hrun : Run (CarefulSteps cfg calls) (.initial Call clock) ls s)
    (hstep : CarefulSteps cfg calls s e s') :
    Exclusive s' ∧ Capped cfg s' ∧ Covered s e s' := by
  have hbacked : Backed calls s := by
    refine hrun.invariant (fun _ _ _ hold hstep => hold.step hstep) ?_
    exact fun _ _ hphase => nomatch hphase
  obtain ⟨hexclusive, hcapped⟩ :=
    exclusive_and_capped ((hrun.tail hstep).mono fun _ _ _ hboth => hboth.1)
  exact ⟨hexclusive, hcapped, hbacked.covered hstep⟩

end Rows

section Examples

def defaults : Settings := ⟨1800, 10⟩

def verdictOfA (_ : Unit) : Submission :=
  ⟨"G", "XLM/USDC", "false_positive", none, "a", none, true⟩

def claimed : List (Event Unit) :=
  [⟨.claimWallet "G" "XLM/USDC" "a" none, 0, 0⟩, ⟨.check (), 5, 5⟩]

/-- The lock of the first analyst runs out after the check, and a second one takes over. -/
def takenOver : List (Event Unit) :=
  [⟨.claimWallet "G" "XLM/USDC" "a" none, 0, 0⟩, ⟨.check (), 1799000000, 1799000000⟩,
    ⟨.claimWallet "G" "XLM/USDC" "b" none, 1800000000, 1800000000⟩]

theorem feedback_under_claim_stored : ∃ (s s' : Service Unit) (e : Event Unit),
    s'.feedback.rows.length = 1 ∧
      Exclusive s' ∧ Capped defaults s' ∧ Covered s e s' := by
  have hrun : (claimed.foldlM (fun s e => if Careful verdictOfA s e then
      next defaults verdictOfA s e else none) (.initial Unit 0)).any (fun s =>
        decide (Careful verdictOfA s ⟨.store (), 6, 6⟩) &&
          (next defaults verdictOfA s ⟨.store (), 6, 6⟩).any fun s' =>
            decide (s'.feedback.rows.length = 1)) = true := by
    decide +kernel
  obtain ⟨s, hs, hboth⟩ := (Option.any_eq_true _ _).mp hrun
  obtain ⟨hcareful, hnext⟩ := Bool.and_eq_true_iff.mp hboth
  obtain ⟨s', hs', hlength⟩ := (Option.any_eq_true _ _).mp hnext
  exact ⟨s, s', ⟨.store (), 6, 6⟩, of_decide_eq_true hlength,
    feedback_under_claim (run_iff_foldlM.mpr hs) ⟨hs', of_decide_eq_true hcareful⟩⟩

/-- Feedback is stored while another analyst holds the claim. -/
theorem feedback_after_takeover : ¬ ∀ (cfg : Settings) (calls : Unit → Submission)
    (clock : Instant) (ls : List (Event Unit)) (s s' : Service Unit) (e : Event Unit),
    (∀ c, (calls c).requireClaim = true) → Run (Steps cfg calls) (.initial Unit clock) ls s →
      Steps cfg calls s e s' → Exclusive s' ∧ Capped cfg s' ∧ Covered s e s' := by
  intro h
  have hrun : (takenOver.foldlM (fun s e => if True then next defaults verdictOfA s e else none)
      (.initial Unit 0)).any (fun s =>
        (next defaults verdictOfA s ⟨.store (), 1800000001, 1800000001⟩).any fun s' =>
          decide (∃ f ∈ s'.feedback.rows, f ∉ s.feedback.rows ∧
            ¬ HoldsClaim s.assignments f.wallet f.assetPair f.analystKeyHash 1800000001)) =
        true := by
    decide +kernel
  obtain ⟨s, hs, hnext⟩ := (Option.any_eq_true _ _).mp hrun
  obtain ⟨s', hs', hstored⟩ := (Option.any_eq_true _ _).mp hnext
  obtain ⟨f, hf, hnew, hnone⟩ := of_decide_eq_true hstored
  have hsteps := (run_iff_foldlM.mpr hs).mono fun _ _ _ hstep => hstep.1
  have hcovered := (h defaults verdictOfA 0 takenOver s s' ⟨.store (), 1800000001, 1800000001⟩
    (fun _ => rfl) hsteps hs').2.2
  exact hnone (hcovered f hf hnew)

end Examples

end AnalystStore
