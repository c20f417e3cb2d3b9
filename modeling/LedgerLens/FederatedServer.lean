import LedgerLens.Krum
import LedgerLens.LabelledRuns
import LedgerLens.WeightShareCap
import Mathlib.Algebra.Order.Floor.Ring
import Mathlib.Data.Rat.Floor

/-!
# The federated aggregation server

`detection/federated/server.py` with the admissions of `detection/federated/admission.py`. A call
holds the server's lock, so that calls follow one another. Soft labels are vectors over the shared
public dataset of `d` rows. What the libraries compute is a parameter: the norm, the accountant of
the Gaussian mechanism, the verification of signatures and the order of ties. Of the audit record,
which the server never reads again, only the success of its saving is kept.
-/
namespace FederatedServer

open Krum LabelledRuns SortedSums WeightShareCap

variable {d : ℕ} {Key Sig : Type}

abbrev Labels (d : ℕ) := Fin d → ℚ

inductive AggregationStrategy where
  | fedavg
  | trimmedMean
  deriving DecidableEq, Repr

structure Config where
  minParticipants : ℤ
  gradientClipThreshold : ℚ
  gradientOutlierThreshold : ℚ
  dpEpsilon : ℚ
  dpMaxEpsilon : ℚ
  admissionRequired : Bool
  maxParticipantWeightFraction : ℚ
  maxNSamplesGrowthFactor : ℚ
  useKrum : Bool
  aggregationStrategy : AggregationStrategy
  trimFraction : ℚ
  noiseMultiplier : ℚ
  deriving DecidableEq, Repr

def Config.default : Config where
  minParticipants := 3
  gradientClipThreshold := 10
  gradientOutlierThreshold := 1 / 10
  dpEpsilon := 1
  dpMaxEpsilon := 10
  admissionRequired := true
  maxParticipantWeightFraction := 1 / 2
  maxNSamplesGrowthFactor := 3
  useKrum := true
  aggregationStrategy := .fedavg
  trimFraction := 1 / 5
  noiseMultiplier := 0

structure Payload (d : ℕ) where
  participantId : String
  roundId : String
  softLabels : Labels d
  nSamples : ℤ
  deriving DecidableEq

structure Libraries (d : ℕ) (Key Sig : Type) where
  norm : Labels d → ℚ
  /-- The ε of the Gaussian mechanism composed with itself. -/
  rdpEpsilon : ℕ → ℚ
  verify : Key → Sig → Payload d → Bool
  argsort : Argsort ℚ

def Libraries.oneRow (verify : Key → Sig → Payload 1 → Bool) : Libraries 1 Key Sig where
  norm labels := |labels 0|
  rdpEpsilon _ := 0
  verify := verify
  argsort := stableArgsort ℚ

structure Admission where
  maxNSamples : ℤ
  revoked : Bool
  deriving DecidableEq, Repr

/-- A ceiling of `none` is the infinite one. -/
structure Participant (Key : Type) where
  publicKey : Key
  maxNSamples : Option ℤ
  nSamplesLastRound : ℤ
  nSamplesHistoryMax : ℤ
  deriving DecidableEq, Repr

inductive Exclusion where
  | cosine (similarity : ℚ)
  | growth (nSamples : ℤ) (factor : ℚ) (historyMax : ℤ)
  deriving DecidableEq, Repr

structure Update (d : ℕ) where
  participantId : String
  noisySoftLabels : Labels d
  delta : Labels d
  nSamples : ℤ
  claimedNSamples : ℤ
  exclusion : Option Exclusion
  deriving DecidableEq

def Update.valid (u : Update d) : Bool := u.exclusion.isNone

structure Server (d : ℕ) (Key : Type) where
  admissions : String → Option Admission
  participants : String → Option (Participant Key)
  pendingUpdates : List (Update d)
  globalSoftLabels : Option (Labels d)
  previousMeanDelta : Option (Labels d)
  currentRoundId : String
  roundNumber : ℕ
  cumulativeEpsilon : ℚ
  aggregationInProgress : Bool

inductive ServerError where
  | notEd25519
  | notAdmitted (participantId : String)
  | badCeiling (maxNSamples : ℤ)
  | emptyParticipantId
  | unknownParticipant (participantId : String)
  | budgetExhausted
  | invalidSignature (participantId : String)
  | krum (error : KrumError)
  | badTrimFraction (trimFraction : ℚ)
  | auditNotSaved
  deriving DecidableEq

section

variable (c : Config) (lib : Libraries d Key Sig)

def admitParticipant (s : Server d Key) (participantId : String) (maxNSamples : ℤ) :
    Server d Key × Except ServerError Unit :=
  if maxNSamples ≤ 0 then (s, .error (.badCeiling maxNSamples))
  else if participantId = "" then (s, .error .emptyParticipantId)
  else ({ s with
    admissions := Function.update s.admissions participantId (some ⟨maxNSamples, false⟩) }, .ok ())

def revokeAdmission (s : Server d Key) (participantId : String) : Server d Key :=
  match s.admissions participantId with
  | none => s
  | some a => { s with
    admissions := Function.update s.admissions participantId (some { a with revoked := true }) }

def ceilingOf (s : Server d Key) (participantId : String) : Except ServerError (Option ℤ) :=
  if c.admissionRequired then
    match s.admissions participantId with
    | none => .error (.notAdmitted participantId)
    | some a => if a.revoked then .error (.notAdmitted participantId) else .ok a.maxNSamples
  else .ok none

def registerParticipant (s : Server d Key) (participantId : String) (publicKey : Option Key) :
    Server d Key × Except ServerError Unit :=
  match publicKey with
  | none => (s, .error .notEd25519)
  | some key =>
    match ceilingOf c s participantId with
    | .error e => (s, .error e)
    | .ok ceiling => ({ s with
      participants := Function.update s.participants participantId (some ⟨key, ceiling, 0, 0⟩) },
      .ok ())

def epsilonAtRound (n : ℕ) : ℚ := if n = 0 then 0 else lib.rdpEpsilon n

/-- Accounting by the accountant of the Gaussian mechanism rather than by a sum. -/
def Config.rdp (c : Config) : Prop := 0 < c.noiseMultiplier

instance : Decidable c.rdp := inferInstanceAs (Decidable (_ < _))

def budgetExhausted (s : Server d Key) : Prop :=
  if c.rdp then c.dpMaxEpsilon < epsilonAtRound lib (s.roundNumber + 1)
  else c.dpMaxEpsilon ≤ s.cumulativeEpsilon

instance (s : Server d Key) : Decidable (budgetExhausted c lib s) :=
  inferInstanceAs (Decidable (if c.rdp then _ < _ else _ ≤ _))

structure Submission (d : ℕ) (Sig : Type) where
  participantId : String
  softLabels : Labels d
  nSamples : ℤ
  signature : Sig

def Server.payload (s : Server d Key) (u : Submission d Sig) : Payload d :=
  ⟨u.participantId, s.currentRoundId, u.softLabels, u.nSamples⟩

def Server.previous (s : Server d Key) : Labels d := s.globalSoftLabels.getD fun _ => 1 / 2

def clippedDelta (s : Server d Key) (softLabels : Labels d) : Labels d :=
  let delta := fun k => softLabels k - s.previous k
  let norm := lib.norm delta
  if c.gradientClipThreshold < norm then fun k => delta k * (c.gradientClipThreshold / norm)
  else delta

/-- The cosine with the mean direction of the previous round, where it is below the threshold. -/
def cosineExclusion (s : Server d Key) (delta : Labels d) : Option Exclusion :=
  match s.previousMeanDelta with
  | none => none
  | some mean =>
    let meanNorm := lib.norm mean
    let curNorm := lib.norm delta
    if 1 / 10 ^ 10 < meanNorm ∧ 1 / 10 ^ 10 < curNorm then
      let cosine := (∑ k, delta k * mean k) / (curNorm * meanNorm)
      if cosine < c.gradientOutlierThreshold then some (.cosine cosine) else none
    else none

def effectiveNSamples (p : Participant Key) (nSamples : ℤ) : ℤ :=
  match p.maxNSamples with
  | none => nSamples
  | some ceiling => min nSamples ceiling

def growthExclusion (p : Participant Key) (nSamples : ℤ) : Option Exclusion :=
  if 0 < p.nSamplesHistoryMax ∧
      c.maxNSamplesGrowthFactor * p.nSamplesHistoryMax < nSamples then
    some (.growth nSamples c.maxNSamplesGrowthFactor p.nSamplesHistoryMax)
  else none

def screen (s : Server d Key) (p : Participant Key) (u : Submission d Sig) : Update d :=
  let delta := clippedDelta c lib s u.softLabels
  let effective := effectiveNSamples p u.nSamples
  { participantId := u.participantId
    noisySoftLabels := fun k => min (max (s.previous k + delta k) 0) 1
    delta := delta
    nSamples := effective
    claimedNSamples := u.nSamples
    exclusion := (cosineExclusion c lib s delta).or (growthExclusion c p effective) }

/-- `self._pending_updates[participant_id] = update`: an entry keeps its place. -/
def setPending (pending : List (Update d)) (u : Update d) : List (Update d) :=
  if pending.any (·.participantId = u.participantId) then
    pending.map fun v => if v.participantId = u.participantId then u else v
  else pending ++ [u]

def Participant.record (p : Participant Key) (u : Update d) : Participant Key :=
  { p with
    nSamplesLastRound := u.nSamples
    nSamplesHistoryMax := if u.valid then max p.nSamplesHistoryMax u.nSamples
      else p.nSamplesHistoryMax }

def Server.accept (s : Server d Key) (p : Participant Key) (u : Update d) : Server d Key :=
  { s with
    pendingUpdates := setPending s.pendingUpdates u
    participants := Function.update s.participants u.participantId (some (p.record u)) }

def admission (s : Server d Key) (u : Submission d Sig) :
    Except ServerError (Participant Key × Update d) :=
  match s.participants u.participantId with
  | none => .error (.unknownParticipant u.participantId)
  | some p =>
    if budgetExhausted c lib s then .error .budgetExhausted
    else if lib.verify p.publicKey u.signature (s.payload u) = false then
      .error (.invalidSignature u.participantId)
    else .ok (p, screen c lib s p u)

/-- What a round draws: the noise, the next round id and whether its audit record is saved. -/
structure Draw (d : ℕ) where
  noise : Labels d
  nextRoundId : String
  saved : Bool

def trimmedMean (updates : List (Labels d)) (trimFraction : ℚ) : Labels d := fun k =>
  let cut := ⌊trimFraction * updates.length⌋.toNat
  let column := updates.map (· k)
  if cut = 0 then column.sum / updates.length
  else
    let kept := ((sorted column).take (updates.length - cut)).drop cut
    kept.sum / kept.length

def rawWeights (updates : List (Update d)) (i : Fin updates.length) : ℚ := (updates.get i).nSamples

def weightsOf (updates : List (Update d)) : Fin updates.length → ℚ :=
  applyWeightShareCap (rawWeights updates) c.maxParticipantWeightFraction

def fedavg (updates : List (Update d)) : Labels d := fun k =>
  ∑ i, weightsOf c updates i * (updates.get i).noisySoftLabels k

def aggregate (updates : List (Update d)) : Except ServerError (Labels d) :=
  match c.aggregationStrategy with
  | .fedavg => .ok (fedavg c updates)
  | .trimmedMean =>
    if 0 ≤ c.trimFraction ∧ c.trimFraction < 1 / 2 then
      .ok (trimmedMean (updates.map Update.noisySoftLabels) c.trimFraction)
    else .error (.badTrimFraction c.trimFraction)

def meanDelta (updates : List (Update d)) : Labels d := fun k =>
  (updates.map fun u => u.delta k).sum / updates.length

def Server.validUpdates (s : Server d Key) : List (Update d) := s.pendingUpdates.filter Update.valid

def survivors (s : Server d Key) : Except KrumError (List (Update d)) :=
  (selectKrumSurvivors lib.argsort c.useKrum fun i : Fin s.validUpdates.length =>
    (s.validUpdates.get i).delta).map fun r => r.1.map s.validUpdates.get

def roundUpdates (s : Server d Key) : Except ServerError (Option (List (Update d))) :=
  match survivors c lib s with
  | .error e => .error (.krum e)
  | .ok updates =>
    if updates = [] ∨ (updates.map Update.nSamples).sum = 0 then .ok none else .ok (some updates)

/-- The round is counted and its ε spent. -/
def Server.complete (s : Server d Key) (updates : List (Update d)) (aggregated noise : Labels d) :
    Server d Key :=
  let rounds := s.roundNumber + 1
  { s with
    globalSoftLabels := some fun k => min (max (aggregated k + noise k) 0) 1
    previousMeanDelta := some (meanDelta updates)
    roundNumber := rounds
    cumulativeEpsilon :=
      if c.rdp then epsilonAtRound lib rounds else s.cumulativeEpsilon + c.dpEpsilon }

def Server.advance (s : Server d Key) (nextRoundId : String) : Server d Key :=
  { s with currentRoundId := nextRoundId, pendingUpdates := [] }

def aggregateLocked (s : Server d Key) (draw : Draw d) :
    Server d Key × Except ServerError (Option (Labels d)) :=
  match roundUpdates c lib s with
  | .error e => (s, .error e)
  | .ok none => (s, .ok none)
  | .ok (some updates) =>
    match aggregate c updates with
    | .error e => (s, .error e)
    | .ok aggregated =>
      let counted := s.complete c lib updates aggregated draw.noise
      if draw.saved then
        (counted.advance draw.nextRoundId, .ok counted.globalSoftLabels)
      else (counted, .error .auditNotSaved)

def forceAggregate (s : Server d Key) (draw : Draw d) :
    Server d Key × Except ServerError (Option (Labels d)) :=
  aggregateLocked c lib s draw

structure Status where
  exclusion : Option Exclusion
  pendingValid : ℕ
  quorum : ℤ
  nSamplesEffective : ℤ
  nSamplesClamped : Bool
  deriving DecidableEq, Repr

/-- The end of an automatic aggregation. A round that raises leaves the flag set. -/
def settle (r : Server d Key × Except ServerError (Option (Labels d))) (status : Status) :
    Server d Key × Except ServerError Status :=
  match r.2 with
  | .error e => (r.1, .error e)
  | .ok _ => ({ r.1 with aggregationInProgress := false }, .ok status)

def submitUpdate (s : Server d Key) (u : Submission d Sig) (draw : Draw d) :
    Server d Key × Except ServerError Status :=
  match admission c lib s u with
  | .error e => (s, .error e)
  | .ok (p, update) =>
    let accepted := s.accept p update
    let status : Status := {
      exclusion := update.exclusion
      pendingValid := accepted.validUpdates.length
      quorum := c.minParticipants
      nSamplesEffective := update.nSamples
      nSamplesClamped := decide (update.nSamples < update.claimedNSamples) }
    if c.minParticipants ≤ status.pendingValid ∧ accepted.aggregationInProgress = false then
      settle (aggregateLocked c lib { accepted with aggregationInProgress := true } draw) status
    else (accepted, .ok status)

inductive Call (d : ℕ) (Key Sig Party : Type) where
  | admitParticipant (participantId : String) (maxNSamples : ℤ)
  | revoke (participantId : String)
  | register (caller : Party) (participantId : String) (publicKey : Option Key)
  | submit (u : Submission d Sig) (draw : Draw d)
  | forceAggregate (draw : Draw d)

variable {Party : Type}

def next (s : Server d Key) : Call d Key Sig Party → Server d Key
  | .admitParticipant participantId maxNSamples => (admitParticipant s participantId maxNSamples).1
  | .revoke participantId => revokeAdmission s participantId
  | .register _ participantId publicKey => (registerParticipant c s participantId publicKey).1
  | .submit u draw => (submitUpdate c lib s u draw).1
  | .forceAggregate draw => (forceAggregate c lib s draw).1

def Server.init (admissions : String → Option Admission) (roundId : String) (rounds : ℕ)
    (cumulative : ℚ) : Server d Key where
  admissions := admissions
  participants _ := none
  pendingUpdates := []
  globalSoftLabels := none
  previousMeanDelta := none
  currentRoundId := roundId
  roundNumber := rounds
  cumulativeEpsilon := if c.rdp ∧ 0 < rounds then lib.rdpEpsilon rounds else cumulative
  aggregationInProgress := false

def completed (s : Server d Key) : Option (List (Update d)) :=
  match roundUpdates c lib s with
  | .ok (some updates) => if (aggregate c updates).isOk then some updates else none
  | _ => none

def enter (s : Server d Key) : Call d Key Sig Party → Server d Key
  | .submit u _ =>
    match admission c lib s u with
    | .error _ => s
    | .ok (p, update) => s.accept p update
  | .forceAggregate _ => s
  | call => next c lib s call

def Aggregates (s : Server d Key) : Call d Key Sig Party → Prop
  | .submit u draw =>
    let accepted := enter c lib s (.submit u draw : Call d Key Sig Party)
    (admission c lib s u).isOk ∧ c.minParticipants ≤ accepted.validUpdates.length ∧
      accepted.aggregationInProgress = false
  | .forceAggregate _ => True
  | _ => False

instance (s : Server d Key) : (call : Call d Key Sig Party) → Decidable (Aggregates c lib s call)
  | .submit _ _ => inferInstanceAs (Decidable (_ ∧ _ ∧ _))
  | .forceAggregate _ => inferInstanceAs (Decidable True)
  | .admitParticipant _ _ => inferInstanceAs (Decidable False)
  | .revoke _ => inferInstanceAs (Decidable False)
  | .register _ _ _ => inferInstanceAs (Decidable False)

def completedBy (s : Server d Key) (call : Call d Key Sig Party) : Option (List (Update d)) :=
  if Aggregates c lib s call then completed c lib (enter c lib s call) else none

end

def Call.saved {Party : Type} : Call d Key Sig Party → Bool
  | .submit _ draw => draw.saved
  | .forceAggregate draw => draw.saved
  | _ => true

section Results

variable {Party : Type} {c : Config} {lib : Libraries d Key Sig} {s t : Server d Key}

/-- No round is counted: the servers differ in the progress flag alone. -/
structure SameRound (s t : Server d Key) : Prop where
  admissions : t.admissions = s.admissions
  participants : t.participants = s.participants
  pendingUpdates : t.pendingUpdates = s.pendingUpdates
  roundNumber : t.roundNumber = s.roundNumber
  cumulativeEpsilon : t.cumulativeEpsilon = s.cumulativeEpsilon

theorem SameRound.refl (s : Server d Key) : SameRound s s := ⟨rfl, rfl, rfl, rfl, rfl⟩

structure Counted (c : Config) (lib : Libraries d Key Sig) (saved : Bool) (s t : Server d Key) :
    Prop where
  admissions : t.admissions = s.admissions
  participants : t.participants = s.participants
  pendingUpdates : t.pendingUpdates = if saved then [] else s.pendingUpdates
  roundNumber : t.roundNumber = s.roundNumber + 1
  cumulativeEpsilon : t.cumulativeEpsilon =
    if c.rdp then epsilonAtRound lib (s.roundNumber + 1) else s.cumulativeEpsilon + c.dpEpsilon

theorem SameRound.trans {r : Server d Key} (h : SameRound s t) (h' : SameRound t r) :
    SameRound s r :=
  ⟨h'.1.trans h.1, h'.2.trans h.2, h'.3.trans h.3, h'.4.trans h.4, h'.5.trans h.5⟩

theorem Counted.trans {saved : Bool} {r : Server d Key} (h : Counted c lib saved s t)
    (h' : SameRound t r) : Counted c lib saved s r :=
  ⟨h'.1.trans h.1, h'.2.trans h.2, h'.3.trans h.3, h'.4.trans h.4, h'.5.trans h.5⟩

theorem settle_sameRound (r : Server d Key × Except ServerError (Option (Labels d)))
    (status : Status) : SameRound r.1 (settle r status).1 := by
  unfold settle
  split
  · exact .refl _
  · exact ⟨rfl, rfl, rfl, rfl, rfl⟩

theorem aggregateLocked_cases (c : Config) (lib : Libraries d Key Sig) (s : Server d Key)
    (draw : Draw d) :
    (completed c lib s = none ∧ (aggregateLocked c lib s draw).1 = s) ∨
    ∃ updates, completed c lib s = some updates ∧
      Counted c lib draw.saved s (aggregateLocked c lib s draw).1 := by
  cases hround : roundUpdates c lib s with
  | error e => exact .inl (by simp [aggregateLocked, completed, hround])
  | ok round =>
    cases round with
    | none => exact .inl (by simp [aggregateLocked, completed, hround])
    | some updates =>
      cases haggregate : aggregate c updates with
      | error e =>
        exact .inl (by simp [aggregateLocked, completed, hround, haggregate, Except.isOk,
          Except.toBool])
      | ok aggregated =>
        refine .inr ⟨updates, ?_, ?_⟩
        · simp [completed, hround, haggregate, Except.isOk, Except.toBool]
        · simp only [aggregateLocked, hround, haggregate]
          cases hsaved : draw.saved with
          | true => exact ⟨rfl, rfl, by simp [Server.advance], rfl, rfl⟩
          | false => exact ⟨rfl, rfl, by simp [Server.complete], rfl, rfl⟩

theorem submitUpdate_cases (s : Server d Key) (u : Submission d Sig) (draw : Draw d) :
    let call : Call d Key Sig Party := .submit u draw
    (completedBy c lib s call = none ∧
      SameRound (enter c lib s call) (submitUpdate c lib s u draw).1) ∨
    ∃ updates, completedBy c lib s call = some updates ∧
      Counted c lib draw.saved (enter c lib s call) (submitUpdate c lib s u draw).1 := by
  cases hadmission : admission c lib s u with
  | error e =>
    refine .inl ⟨by simp [completedBy, Aggregates, hadmission, Except.isOk, Except.toBool], ?_⟩
    simp only [submitUpdate, enter, hadmission]
    exact .refl s
  | ok r =>
    obtain ⟨p, update⟩ := r
    simp only [completedBy, Aggregates, enter, submitUpdate, hadmission]
    by_cases hquorum : c.minParticipants ≤ ((s.accept p update).validUpdates.length : ℤ) ∧
        (s.accept p update).aggregationInProgress = false
    · rw [if_pos ⟨rfl, hquorum⟩, if_pos hquorum]
      rcases aggregateLocked_cases c lib
        { s.accept p update with aggregationInProgress := true } draw with
        ⟨hnone, hsame⟩ | ⟨updates, hsome, hcounted⟩
      · refine .inl ⟨hnone, SameRound.trans ?_ (settle_sameRound _ _)⟩
        rw [hsame]
        exact ⟨rfl, rfl, rfl, rfl, rfl⟩
      · refine .inr ⟨updates, hsome, Counted.trans ?_ (settle_sameRound _ _)⟩
        exact ⟨hcounted.1, hcounted.2, hcounted.3, hcounted.4, hcounted.5⟩
    · rw [if_neg fun h => hquorum h.2, if_neg hquorum]
      exact .inl ⟨rfl, .refl _⟩

theorem next_cases (c : Config) (lib : Libraries d Key Sig) (s : Server d Key)
    (call : Call d Key Sig Party) :
    (completedBy c lib s call = none ∧ SameRound (enter c lib s call) (next c lib s call)) ∨
    ∃ updates, completedBy c lib s call = some updates ∧
      Counted c lib call.saved (enter c lib s call) (next c lib s call) := by
  cases call with
  | admitParticipant | revoke | register => exact .inl ⟨rfl, .refl _⟩
  | submit u draw => exact submitUpdate_cases s u draw
  | forceAggregate draw =>
    rcases aggregateLocked_cases c lib s draw with ⟨hnone, hsame⟩ | hcompleted
    · exact .inl ⟨hnone, by simp only [next, forceAggregate, hsame]; exact .refl s⟩
    · exact .inr hcompleted

theorem enter_frame (c : Config) (lib : Libraries d Key Sig) (s : Server d Key)
    (call : Call d Key Sig Party) : ∃ admissions participants pendingUpdates,
      enter c lib s call = { s with
        admissions := admissions, participants := participants
        pendingUpdates := pendingUpdates } := by
  cases call with
  | admitParticipant participantId maxNSamples =>
    simp only [enter, next, admitParticipant]
    split_ifs <;> exact ⟨_, _, _, rfl⟩
  | revoke participantId =>
    simp only [enter, next, revokeAdmission]
    split <;> exact ⟨_, _, _, rfl⟩
  | register caller participantId publicKey =>
    simp only [enter, next, registerParticipant]
    split
    · exact ⟨_, _, _, rfl⟩
    · split <;> exact ⟨_, _, _, rfl⟩
  | submit u draw =>
    simp only [enter]
    split <;> exact ⟨_, _, _, rfl⟩
  | forceAggregate draw => exact ⟨_, _, _, rfl⟩

theorem enter_spends_nothing (c : Config) (lib : Libraries d Key Sig) (s : Server d Key)
    (call : Call d Key Sig Party) :
    (enter c lib s call).roundNumber = s.roundNumber ∧
      (enter c lib s call).cumulativeEpsilon = s.cumulativeEpsilon := by
  obtain ⟨_, _, _, hentered⟩ := enter_frame c lib s call
  rw [hentered]
  exact ⟨rfl, rfl⟩

theorem forall_steps {α : Type} {P : List α → α → Prop} {calls : List α}
    (h : ∀ (i : ℕ) (hi : i < calls.length), P (calls.take i) calls[i]) (before : List α) (call : α)
    (hrun : before ++ [call] <+: calls) : P before call := by
  obtain ⟨rest, rfl⟩ := hrun
  simpa using h before.length (by simp)

theorem mem_survivors {updates : List (Update d)} (h : survivors c lib s = .ok updates)
    {u : Update d} (hu : u ∈ updates) : u ∈ s.pendingUpdates ∧ u.valid = true := by
  unfold survivors at h
  cases hselect : selectKrumSurvivors lib.argsort c.useKrum fun i : Fin s.validUpdates.length =>
      (s.validUpdates.get i).delta with
  | error e =>
    rw [hselect] at h
    cases h
  | ok r =>
    rw [hselect] at h
    cases h
    obtain ⟨i, -, rfl⟩ := List.mem_map.mp hu
    exact List.mem_filter.mp (List.get_mem s.validUpdates i)

theorem completed_eq_some {updates : List (Update d)} (h : completed c lib s = some updates) :
    survivors c lib s = .ok updates ∧ updates ≠ [] ∧ (updates.map Update.nSamples).sum ≠ 0 := by
  cases hsurvivors : survivors c lib s with
  | error e => simp [completed, roundUpdates, hsurvivors] at h
  | ok kept =>
    simp only [completed, roundUpdates, hsurvivors] at h
    by_cases hnone : kept = [] ∨ (kept.map Update.nSamples).sum = 0
    · simp [if_pos hnone] at h
    · rw [if_neg hnone] at h
      simp only [] at h
      split_ifs at h
      obtain rfl := Option.some.inj h
      exact ⟨rfl, not_or.mp hnone⟩

theorem mem_completedBy {call : Call d Key Sig Party} {updates : List (Update d)}
    (h : completedBy c lib s call = some updates) {u : Update d} (hu : u ∈ updates) :
    u ∈ (enter c lib s call).pendingUpdates ∧ u.valid = true := by
  unfold completedBy at h
  split_ifs at h
  exact mem_survivors (completed_eq_some h).1 hu

theorem completedBy_ne_nil {call : Call d Key Sig Party} {updates : List (Update d)}
    (h : completedBy c lib s call = some updates) : updates ≠ [] := by
  unfold completedBy at h
  split_ifs at h
  exact (completed_eq_some h).2.1

theorem mem_setPending {pending : List (Update d)} {u v : Update d}
    (h : v ∈ setPending pending u) : v = u ∨ v ∈ pending := by
  unfold setPending at h
  split_ifs at h
  · obtain ⟨w, hw, rfl⟩ := List.mem_map.mp h
    split_ifs
    · exact .inl rfl
    · exact .inr hw
  · rcases List.mem_append.mp h with h | h
    · exact .inr h
    · exact .inl (List.mem_singleton.mp h)

theorem admission_eq_ok {u : Submission d Sig} {p : Participant Key} {update : Update d}
    (h : admission c lib s u = .ok (p, update)) :
    s.participants u.participantId = some p ∧ ¬ budgetExhausted c lib s ∧
      lib.verify p.publicKey u.signature (s.payload u) = true ∧ update = screen c lib s p u := by
  unfold admission at h
  split at h
  · cases h
  · rename_i q hq
    split_ifs at h with hbudget hverify
    obtain ⟨rfl, rfl⟩ := Prod.mk.inj (Except.ok.inj h)
    exact ⟨hq, hbudget, by simpa using hverify, rfl⟩

end Results

end FederatedServer
