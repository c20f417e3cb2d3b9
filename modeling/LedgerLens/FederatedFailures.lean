import LedgerLens.FallibleRuns
import LedgerLens.FederatedServer

/-!
# Failing aggregations

`_aggregate_locked` of `detection/federated/server.py` with an exception at any of its steps, and
the submission that triggers it. Nothing is rolled back: an exception finds the state as the last
assignment before it left it, and an automatic aggregation that raises never clears its flag.
-/
namespace FederatedFailures

open FallibleRuns FederatedServer Krum

variable {d : ℕ} {Key Sig Party : Type}

/-- The steps that may raise of themselves, in their order. The saving of the audit record comes
before the next round id, and is drawn with the round. -/
inductive Step where
  | selectKrumSurvivors
  | weightShareCap
  | combine
  | serverNoise
  | updateNorm
  | meanDelta
  | cumulativeEpsilon
  | epsilonConsumed
  | buildRecord
  | signRecord
  | nextRoundId
  | nextProjected
  deriving DecidableEq, Repr

def Step.early : Step → Bool
  | .selectKrumSurvivors | .weightShareCap | .combine => true
  | .serverNoise | .updateNorm | .meanDelta => true
  | _ => false

inductive Failure where
  | server (error : ServerError)
  | raised (step : Step)
  deriving DecidableEq

inductive SubmitFailure where
  | rejected (error : ServerError)
  | aggregation (failure : Failure)
  deriving DecidableEq

/-- A call, and the step at which its aggregation would raise. -/
abbrev Attempt (d : ℕ) (Key Sig Party : Type) := Call d Key Sig Party × Option Step

def check (raised : Option Step) (step : Step) : Except Failure Unit :=
  if raised = some step then .error (.raised step) else .ok ()

section

variable (c : Config) (lib : Libraries d Key Sig)

def combine (updates : List (Update d)) (raised : Option Step) : Except Failure (Labels d) := do
  check raised .weightShareCap
  check raised .combine
  let aggregated ← (aggregate c updates).mapError Failure.server
  check raised .serverNoise
  check raised .updateNorm
  check raised .meanDelta
  return aggregated

def compute (s : Server d Key) (raised : Option Step) :
    Except Failure (Option (List (Update d) × Labels d)) :=
  if s.validUpdates = [] then return none
  else do
    check raised .selectKrumSurvivors
    match ← (roundUpdates c lib s).mapError Failure.server with
    | none => return none
    | some updates => return some (updates, ← combine c updates raised)

/-- Once the round is counted its ε is assigned, and once its record is saved the next one
begins. -/
def aggregateRaising (s : Server d Key) (draw : Draw d) (raised : Option Step) :
    Server d Key × Except Failure (Option (Labels d)) :=
  match compute c lib s raised with
  | .error e => (s, .error e)
  | .ok none => (s, .ok none)
  | .ok (some (updates, aggregated)) =>
    let counted := s.complete c lib updates aggregated draw.noise
    let assigned := { counted with cumulativeEpsilon := s.cumulativeEpsilon }
    let advanced := counted.advance draw.nextRoundId
    -- The accountant is asked with a noise multiplier only.
    if c.rdp ∧ raised = some .cumulativeEpsilon then
      (assigned, .error (.raised .cumulativeEpsilon))
    else if c.rdp ∧ raised = some .epsilonConsumed then
      (counted, .error (.raised .epsilonConsumed))
    else if raised = some .buildRecord then (counted, .error (.raised .buildRecord))
    else if raised = some .signRecord then (counted, .error (.raised .signRecord))
    else if draw.saved = false then (counted, .error (.server .auditNotSaved))
    else if raised = some .nextRoundId then (counted, .error (.raised .nextRoundId))
    else if c.rdp ∧ raised = some .nextProjected then
      (advanced, .error (.raised .nextProjected))
    else (advanced, .ok counted.globalSoftLabels)

def submitRaising (s : Server d Key) (u : Submission d Sig) (draw : Draw d)
    (raised : Option Step) : Server d Key × Except SubmitFailure Status :=
  match admission c lib s u with
  | .error e => (s, .error (.rejected e))
  | .ok (p, update) =>
    let accepted := s.accept p update
    let status : Status := {
      exclusion := update.exclusion
      pendingValid := accepted.validUpdates.length
      quorum := c.minParticipants
      nSamplesEffective := update.nSamples
      nSamplesClamped := decide (update.nSamples < update.claimedNSamples) }
    if c.minParticipants ≤ status.pendingValid ∧ accepted.aggregationInProgress = false then
      let r := aggregateRaising c lib { accepted with aggregationInProgress := true } draw raised
      match r.2 with
      | .error e => (r.1, .error (.aggregation e))
      | .ok _ => ({ r.1 with aggregationInProgress := false }, .ok status)
    else (accepted, .ok status)

def nextRaising (s : Server d Key) (attempt : Attempt d Key Sig Party) : Server d Key :=
  match attempt.1 with
  | .submit u draw => (submitRaising c lib s u draw attempt.2).1
  | .forceAggregate draw => (aggregateRaising c lib s draw attempt.2).1
  | call => next c lib s call

def failure (s : Server d Key) (attempt : Attempt d Key Sig Party) : Option Failure :=
  match attempt.1 with
  | .submit u draw =>
    match (submitRaising c lib s u draw attempt.2).2 with
    | .error (.aggregation e) => some e
    | _ => none
  | .forceAggregate draw =>
    match (aggregateRaising c lib s draw attempt.2).2 with
    | .error e => some e
    | .ok _ => none
  | _ => none

def ReachesQuorum (s : Server d Key) (u : Submission d Sig) : Prop :=
  ∃ p update, admission c lib s u = .ok (p, update) ∧
    c.minParticipants ≤ ((s.accept p update).validUpdates.length : ℤ)

def Undisturbed (s : Server d Key) (attempts : List (Attempt d Key Sig Party)) : Prop :=
  ∀ before attempt, before ++ [attempt] <+: attempts →
    failure c lib (before.foldl (nextRaising c lib) s) attempt = none

/-- The failed aggregation left the state as it found it, and every later submission that reaches
the quorum aggregates. -/
def Recovers (s : Server d Key) (attempt : Attempt d Key Sig Party) : Prop :=
  nextRaising c lib s attempt = enter c lib s attempt.1 ∧
    ∀ later : List (Attempt d Key Sig Party),
      Undisturbed c lib (nextRaising c lib s attempt) later →
      let t := later.foldl (nextRaising c lib) (nextRaising c lib s attempt)
      ∀ (u : Submission d Sig) (draw : Draw d), ReachesQuorum c lib t u →
        Aggregates c lib t (.submit u draw : Call d Key Sig Party)

def Rejected (s : Server d Key) : Prop :=
  (∃ e, roundUpdates c lib s = .error e) ∨
    ∃ updates e, roundUpdates c lib s = .ok (some updates) ∧ aggregate c updates = .error e

def RaisesEarly (s : Server d Key) (raised : Option Step) : Prop :=
  Rejected c lib s ∨ ∃ step, raised = some step ∧ step.early

def ForcedEarly (s : Server d Key) (attempt : Attempt d Key Sig Party) : Prop :=
  (∃ draw, attempt.1 = .forceAggregate draw) ∧ RaisesEarly c lib s attempt.2

end

variable {c : Config} {lib : Libraries d Key Sig} {s : Server d Key} {raised : Option Step}

theorem roundUpdates_nil (hvalid : s.validUpdates = []) : roundUpdates c lib s = .ok none := by
  have hkeeps : selectKrumSurvivors lib.argsort c.useKrum (fun i : Fin s.validUpdates.length =>
      (s.validUpdates.get i).delta) = .ok (List.finRange s.validUpdates.length, []) := by
    by_cases huse : c.useKrum = true
    · rw [selectKrumSurvivors, if_neg (not_not.mpr huse), if_pos (by simp [hvalid])]
    · rw [selectKrumSurvivors, if_pos huse]
  have hsurvivors : survivors c lib s = .ok [] := by
    rw [survivors, hkeeps]
    simp [Except.map, hvalid]
  rw [roundUpdates, hsurvivors]
  exact if_pos (.inl rfl)

theorem aggregateRaising_none (s : Server d Key) (draw : Draw d) :
    aggregateRaising c lib s draw none =
      ((aggregateLocked c lib s draw).1,
        (aggregateLocked c lib s draw).2.mapError Failure.server) := by
  by_cases hvalid : s.validUpdates = []
  · simp only [aggregateRaising, compute, aggregateLocked, if_pos hvalid, roundUpdates_nil hvalid]
    rfl
  rw [aggregateRaising, compute, if_neg hvalid, aggregateLocked]
  cases roundUpdates c lib s with
  | error e => rfl
  | ok round =>
    cases round with
    | none => rfl
    | some updates =>
      cases haggregate : aggregate c updates with
      | error e => simp [check, combine, haggregate, Except.mapError, bind, Except.bind]
      | ok aggregated =>
        cases draw.saved <;>
          simp [check, combine, haggregate, Except.mapError, bind, Except.bind, pure, Except.pure]

theorem submitRaising_none (s : Server d Key) (u : Submission d Sig) (draw : Draw d) :
    (submitRaising c lib s u draw none).1 = (submitUpdate c lib s u draw).1 := by
  rw [submitRaising, submitUpdate]
  cases admission c lib s u with
  | error e => rfl
  | ok admitted =>
    obtain ⟨p, update⟩ := admitted
    dsimp only
    split_ifs
    · rw [aggregateRaising_none, settle]
      cases (aggregateLocked c lib { s.accept p update with aggregationInProgress := true }
        draw).2 <;> rfl
    · rfl

theorem nextRaising_none (s : Server d Key) (call : Call d Key Sig Party) :
    nextRaising c lib s (call, none) = next c lib s call := by
  cases call with
  | admitParticipant | revoke | register => rfl
  | submit u draw => exact submitRaising_none s u draw
  | forceAggregate draw => exact congrArg Prod.fst (aggregateRaising_none s draw)

@[simp] theorem check_eq_ok {step : Step} {u : Unit} :
    check raised step = .ok u ↔ raised ≠ some step := by
  rw [check]
  split_ifs with h
  · simp [h]
  · simp [h]

@[simp] theorem mapError_eq_ok {α ε ε' : Type} {x : Except ε α} {f : ε → ε'} {a : α} :
    x.mapError f = .ok a ↔ x = .ok a := by
  cases x <;> simp [Except.mapError]

theorem combine_eq_ok {updates : List (Update d)} {aggregated : Labels d} :
    combine c updates raised = .ok aggregated ↔
      aggregate c updates = .ok aggregated ∧
        ∀ step, step.early → step ≠ .selectKrumSurvivors → raised ≠ some step := by
  simp only [combine, bind_eq_ok, check_eq_ok, mapError_eq_ok, pure_eq_ok]
  constructor
  · rintro ⟨_, hshare, _, hcombine, aggregated', hok, _, hnoise, _, hnorm, _, hmean, rfl⟩
    refine ⟨hok, fun step hearly hselect => ?_⟩
    cases step with
    | selectKrumSurvivors => exact absurd rfl hselect
    | weightShareCap => exact hshare
    | combine => exact hcombine
    | serverNoise => exact hnoise
    | updateNorm => exact hnorm
    | meanDelta => exact hmean
    | cumulativeEpsilon | epsilonConsumed | buildRecord => cases hearly
    | signRecord | nextRoundId | nextProjected => cases hearly
  · rintro ⟨hok, hpass⟩
    exact ⟨(), hpass _ rfl (by decide), (), hpass _ rfl (by decide), aggregated, hok, (),
      hpass _ rfl (by decide), (), hpass _ rfl (by decide), (), hpass _ rfl (by decide), rfl⟩

theorem compute_eq_ok {r : Option (List (Update d) × Labels d)}
    (h : compute c lib s raised = .ok r) : r = none ∨ ¬ RaisesEarly c lib s raised := by
  rw [compute] at h
  split_ifs at h with hvalid
  · exact .inl (pure_eq_ok.mp h).symm
  · obtain ⟨_, hselect, hrest⟩ := bind_eq_ok.mp h
    obtain ⟨round, hround, hrest⟩ := bind_eq_ok.mp hrest
    rw [mapError_eq_ok] at hround
    cases round with
    | none => exact .inl (pure_eq_ok.mp hrest).symm
    | some updates =>
      obtain ⟨aggregated, hcombine, -⟩ := bind_eq_ok.mp hrest
      obtain ⟨hok, hpass⟩ := combine_eq_ok.mp hcombine
      right
      rintro ((⟨e, he⟩ | ⟨updates', e, hupdates, he⟩) | ⟨step, hstep, hearly⟩)
      · simp [hround] at he
      · obtain rfl : updates = updates' := by simpa [hround] using hupdates
        simp [hok] at he
      · by_cases hfirst : step = .selectKrumSurvivors
        · exact check_eq_ok.mp hselect (hfirst ▸ hstep)
        · exact hpass step hearly hfirst hstep

theorem raisesEarly_of_compute {e : Failure} (h : compute c lib s raised = .error e) :
    RaisesEarly c lib s raised := by
  by_contra hlate
  obtain ⟨hround, hpass⟩ := not_or.mp hlate
  obtain ⟨hround, haggregate⟩ := not_or.mp hround
  have hcheck (step : Step) (hearly : step.early) : check raised step = .ok () :=
    check_eq_ok.mpr fun hstep => hpass ⟨step, hstep, hearly⟩
  have hvalid : s.validUpdates ≠ [] := by
    intro hvalid
    rw [compute, if_pos hvalid] at h
    cases h
  rw [compute, if_neg hvalid, hcheck _ rfl] at h
  cases hupdates : roundUpdates c lib s with
  | error e => exact hround ⟨e, hupdates⟩
  | ok round =>
    rw [hupdates] at h
    cases round with
    | none => cases h
    | some updates =>
      cases hok : aggregate c updates with
      | error e => exact haggregate ⟨updates, e, hupdates, hok⟩
      | ok aggregated =>
        have hcombine : combine c updates raised = .ok aggregated :=
          combine_eq_ok.mpr ⟨hok, fun step hearly _ hstep => hpass ⟨step, hstep, hearly⟩⟩
        simp [Except.mapError, bind, Except.bind, hcombine, pure, Except.pure] at h

theorem aggregateRaising_error {draw : Draw d} {e : Failure}
    (h : (aggregateRaising c lib s draw raised).2 = .error e) :
    RaisesEarly c lib s raised ∧ (aggregateRaising c lib s draw raised).1 = s ∨
      ¬ RaisesEarly c lib s raised ∧
        (aggregateRaising c lib s draw raised).1.roundNumber = s.roundNumber + 1 := by
  cases hcompute : compute c lib s raised with
  | error e =>
    refine .inl ⟨raisesEarly_of_compute hcompute, ?_⟩
    rw [aggregateRaising, hcompute]
  | ok round =>
    cases round with
    | none =>
      rw [aggregateRaising, hcompute] at h
      cases h
    | some computed =>
      refine .inr ⟨(compute_eq_ok hcompute).resolve_left nofun, ?_⟩
      simp only [aggregateRaising, hcompute]
      split_ifs <;> rfl

theorem aggregateRaising_flag (s : Server d Key) (draw : Draw d) :
    (aggregateRaising c lib s draw raised).1.aggregationInProgress =
      s.aggregationInProgress := by
  cases hcompute : compute c lib s raised with
  | error e => rw [aggregateRaising, hcompute]
  | ok round =>
    cases round with
    | none => rw [aggregateRaising, hcompute]
    | some computed =>
      simp only [aggregateRaising, hcompute]
      split_ifs <;> rfl

theorem enter_flag (c : Config) (lib : Libraries d Key Sig) (s : Server d Key)
    (call : Call d Key Sig Party) :
    (enter c lib s call).aggregationInProgress = s.aggregationInProgress := by
  obtain ⟨_, _, _, hentered⟩ := enter_frame c lib s call
  rw [hentered]

theorem submit_failure {u : Submission d Sig} {draw : Draw d} {e : Failure}
    (h : failure c lib s ((.submit u draw, raised) : Attempt d Key Sig Party) = some e) :
    (enter c lib s (.submit u draw : Call d Key Sig Party)).aggregationInProgress = false ∧
      (nextRaising c lib s ((.submit u draw, raised) : Attempt d Key Sig Party)
        ).aggregationInProgress = true := by
  simp only [failure, submitRaising] at h
  simp only [enter, nextRaising, submitRaising]
  cases hadmission : admission c lib s u with
  | error e => simp [hadmission] at h
  | ok admitted =>
    obtain ⟨p, update⟩ := admitted
    simp only [hadmission] at h ⊢
    split_ifs at h ⊢ with hquorum
    refine ⟨hquorum.2, ?_⟩
    cases hresult : (aggregateRaising c lib
        { s.accept p update with aggregationInProgress := true } draw raised).2 with
    | ok labels => simp [hresult] at h
    | error e => exact aggregateRaising_flag _ draw

theorem nextRaising_flag (c : Config) (lib : Libraries d Key Sig) (s : Server d Key)
    (attempt : Attempt d Key Sig Party) :
    (nextRaising c lib s attempt).aggregationInProgress = s.aggregationInProgress ∨
      s.aggregationInProgress = false ∧ failure c lib s attempt ≠ none := by
  obtain ⟨call, raised⟩ := attempt
  have hentered := enter_flag c lib s call
  cases call with
  | admitParticipant | revoke | register => exact .inl hentered
  | forceAggregate draw => exact .inl (aggregateRaising_flag s draw)
  | submit u draw =>
    simp only [failure, nextRaising, submitRaising]
    cases hadmission : admission c lib s u with
    | error e => exact .inl rfl
    | ok admitted =>
      obtain ⟨p, update⟩ := admitted
      dsimp only
      split_ifs with hquorum
      · cases hresult : (aggregateRaising c lib
            { s.accept p update with aggregationInProgress := true } draw raised).2 with
        | ok labels => exact .inl hquorum.2.symm
        | error e => exact .inr ⟨hquorum.2, nofun⟩
      · exact .inl rfl

theorem run_flag {P : Server d Key → Attempt d Key Sig Party → Prop}
    (keep : ∀ s attempt, s.aggregationInProgress = false → failure c lib s attempt ≠ none →
      P s attempt → (nextRaising c lib s attempt).aggregationInProgress = false)
    (hflag : s.aggregationInProgress = false) {attempts : List (Attempt d Key Sig Party)}
    (h : ∀ before attempt, before ++ [attempt] <+: attempts →
      failure c lib (before.foldl (nextRaising c lib) s) attempt ≠ none →
        P (before.foldl (nextRaising c lib) s) attempt) :
    (attempts.foldl (nextRaising c lib) s).aggregationInProgress = false := by
  induction attempts using List.reverseRecOn with
  | nil => exact hflag
  | append_singleton before attempt ih =>
    have hbefore := ih fun before' attempt' hcalls =>
      h before' attempt' (hcalls.trans (List.prefix_append _ _))
    rw [List.foldl_append]
    by_cases hnone : failure c lib (before.foldl (nextRaising c lib) s) attempt = none
    · rcases nextRaising_flag c lib _ attempt with hsame | ⟨-, hfails⟩
      · exact hsame.trans hbefore
      · exact absurd hnone hfails
    · exact keep _ attempt hbefore hnone (h before attempt List.prefix_rfl hnone)

theorem undisturbed_flag {later : List (Attempt d Key Sig Party)}
    (h : Undisturbed c lib s later) (hflag : s.aggregationInProgress = false) :
    (later.foldl (nextRaising c lib) s).aggregationInProgress = false :=
  run_flag (P := fun _ _ => False) (fun _ _ _ _ hfalse => hfalse.elim) hflag
    fun before attempt hcalls hfails => hfails (h before attempt hcalls)

theorem never_aggregates (hflag : s.aggregationInProgress = true)
    (later : List (Attempt d Key Sig Party)) (u : Submission d Sig) (draw : Draw d) :
    ¬ Aggregates c lib (later.foldl (nextRaising c lib) s)
      (.submit u draw : Call d Key Sig Party) := by
  have hset : (later.foldl (nextRaising c lib) s).aggregationInProgress = true := by
    induction later using List.reverseRecOn with
    | nil => exact hflag
    | append_singleton before attempt ih =>
      rw [List.foldl_append]
      rcases nextRaising_flag c lib _ attempt with hsame | ⟨hclear, -⟩
      · exact hsame.trans ih
      · simp [ih] at hclear
  rintro ⟨-, -, hclear⟩
  rw [enter_flag, hset] at hclear
  cases hclear

theorem aggregates_of_flag (hflag : s.aggregationInProgress = false) {u : Submission d Sig}
    (draw : Draw d) (h : ReachesQuorum c lib s u) :
    Aggregates c lib s (.submit u draw : Call d Key Sig Party) := by
  obtain ⟨p, update, hadmission, hquorum⟩ := h
  refine ⟨?_, ?_, (enter_flag c lib s _).trans hflag⟩
  · rw [hadmission]
    rfl
  · simpa only [enter, hadmission] using hquorum

theorem forced_cases {draw : Draw d} {e : Failure}
    (h : failure c lib s ((.forceAggregate draw, raised) : Attempt d Key Sig Party) = some e) :
    (aggregateRaising c lib s draw raised).2 = .error e := by
  simp only [failure] at h
  cases hresult : (aggregateRaising c lib s draw raised).2 with
  | ok labels => simp [hresult] at h
  | error e' =>
    rw [hresult] at h
    rw [Option.some.inj h]

/-- With the flag clear, a failed aggregation recovers exactly if it was forced and raised before
anything was assigned. -/
theorem recovers_iff (hflag : s.aggregationInProgress = false)
    {attempt : Attempt d Key Sig Party} {e : Failure}
    (h : failure c lib s attempt = some e) :
    Recovers c lib s attempt ↔ ForcedEarly c lib s attempt := by
  obtain ⟨call, raised⟩ := attempt
  cases call with
  | admitParticipant | revoke | register => cases h
  | submit u draw =>
    obtain ⟨hclear, hset⟩ := submit_failure h
    constructor
    · rintro ⟨hsame, -⟩
      rw [hsame, hclear] at hset
      cases hset
    · rintro ⟨⟨_, hforced⟩, -⟩
      cases hforced
  | forceAggregate draw =>
    rcases aggregateRaising_error (forced_cases h) with ⟨hearly, hsame⟩ | ⟨hlate, hcounted⟩
    · refine iff_of_true ⟨hsame, ?_⟩ ⟨⟨draw, rfl⟩, hearly⟩
      intro later hlater t u draw' hquorum
      apply aggregates_of_flag _ draw' hquorum
      apply undisturbed_flag hlater
      exact (aggregateRaising_flag s draw).trans hflag
    · refine iff_of_false ?_ fun hforced => hlate hforced.2
      rintro ⟨hsame, -⟩
      have hrounds : (aggregateRaising c lib s draw raised).1.roundNumber = s.roundNumber :=
        congrArg Server.roundNumber hsame
      omega

theorem Recovers.flag (s : Server d Key) (attempt : Attempt d Key Sig Party)
    (hflag : s.aggregationInProgress = false) (_ : failure c lib s attempt ≠ none)
    (h : Recovers c lib s attempt) :
    (nextRaising c lib s attempt).aggregationInProgress = false := by
  rw [h.1]
  exact (enter_flag c lib s attempt.1).trans hflag

theorem ForcedEarly.flag (s : Server d Key) (attempt : Attempt d Key Sig Party)
    (hflag : s.aggregationInProgress = false) (hfails : failure c lib s attempt ≠ none)
    (h : ForcedEarly c lib s attempt) :
    (nextRaising c lib s attempt).aggregationInProgress = false := by
  obtain ⟨e, he⟩ := Option.ne_none_iff_exists'.mp hfails
  exact ((recovers_iff hflag he).mpr h).flag s attempt hflag hfails

/-- In the runs of a started server, all failed aggregations recover exactly if all of them were
forced and raised before anything was assigned. -/
theorem aggregation_recovers_iff (c : Config) (lib : Libraries d Key Sig)
    (admissions : String → Option Admission) (roundId : String) (rounds : ℕ) (cumulative : ℚ)
    (attempts : List (Attempt d Key Sig Party)) :
    let start := Server.init c lib admissions roundId rounds cumulative
    (∀ before attempt, before ++ [attempt] <+: attempts →
      let s := before.foldl (nextRaising c lib) start
      failure c lib s attempt ≠ none → Recovers c lib s attempt) ↔
    ∀ before attempt, before ++ [attempt] <+: attempts →
      let s := before.foldl (nextRaising c lib) start
      failure c lib s attempt ≠ none → ForcedEarly c lib s attempt := by
  intro start
  have hstart : start.aggregationInProgress = false := rfl
  constructor
  · intro h before attempt hcalls s hfails
    have hflag : s.aggregationInProgress = false := by
      apply run_flag Recovers.flag hstart
      exact fun before' attempt' hcalls' =>
        h before' attempt' (hcalls'.trans ((List.prefix_append _ _).trans hcalls))
    obtain ⟨e, he⟩ := Option.ne_none_iff_exists'.mp hfails
    exact (recovers_iff hflag he).mp (h before attempt hcalls hfails)
  · intro h before attempt hcalls s hfails
    have hflag : s.aggregationInProgress = false := by
      apply run_flag ForcedEarly.flag hstart
      exact fun before' attempt' hcalls' =>
        h before' attempt' (hcalls'.trans ((List.prefix_append _ _).trans hcalls))
    obtain ⟨e, he⟩ := Option.ne_none_iff_exists'.mp hfails
    exact (recovers_iff hflag he).mpr (h before attempt hcalls hfails)

def aloneConfig : Config :=
  { Config.default with
    minParticipants := 1
    admissionRequired := false }

def trusting : Libraries 1 Unit Unit := .oneRow fun _ _ _ => true

/-- The registered participant's update reaches the quorum of one, and its audit record is not
saved. -/
def unsaved : Attempt 1 Unit Unit Unit :=
  (.submit ⟨"p", fun _ => 1 / 2, 10, ()⟩ ⟨fun _ => 0, "r1", false⟩, none)

def registered : Server 1 Unit :=
  [((.register () "p" (some ()), none) : Attempt 1 Unit Unit Unit)].foldl
    (nextRaising aloneConfig trusting) (.init aloneConfig trusting (fun _ => none) "r0" 0 0)

/-- The round is counted and its update still pending. -/
theorem unsaved_not_recovered :
    failure aloneConfig trusting registered unsaved = some (.server .auditNotSaved) ∧
      ¬ Recovers aloneConfig trusting registered unsaved := by
  refine ⟨by decide +kernel, ?_⟩
  rintro ⟨hsame, -⟩
  have hrounds := congrArg Server.roundNumber hsame
  revert hrounds
  decide +kernel

end FederatedFailures
