import LedgerLens.IsoOrder
import LedgerLens.SqlTables
import Mathlib.Algebra.Order.Ring.Rat
import Mathlib.Data.List.TakeWhile
import Mathlib.Logic.Function.Basic

/-!
# Alerts

`detection/alert_engine.py` with `detection/suppressions.py`: the events of a wallet's alert over
its scores, and the rules that suppress them. Scores are exact rationals.
-/
namespace AlertStates

open IsoTimestamps SqlTables

structure Suppression where
  id : ℕ
  wallet : String
  reason : String
  createdAt : String
  expiresAt : Option String
  deriving DecidableEq

abbrev Suppressions := IdTable Suppression Suppression.id

def Suppressions.add (t : Suppressions) (now : Utc) (wallet reason : String)
    (expiresAt : Option String) : Suppressions :=
  t.insert (fun id => ⟨id, wallet, reason, now.1.isoformat, expiresAt⟩) fun _ => rfl

/-- `expires_at IS NULL OR expires_at > ?`, a comparison of texts. -/
def Suppression.active (now : Utc) (r : Suppression) : Bool :=
  match r.expiresAt with
  | none => true
  | some text => decide (now.1.isoformat < text)

def Suppressions.listActive (t : Suppressions) (now : Utc) : List Suppression :=
  t.rows.filter fun r => r.active now

/-- Whether a row was deleted. -/
def Suppressions.remove (t : Suppressions) (ruleId : ℕ) : Suppressions × Bool :=
  (t.delete fun r => r.id = ruleId, t.rows.any fun r => decide (r.id = ruleId))

def Suppressions.isSuppressed (t : Suppressions) (now : Utc) (wallet : String) :
    Option Suppression :=
  t.rows.find? fun r => decide (r.wallet = wallet) && r.active now

inductive EventType where
  | opened
  | escalated
  | resolved
  deriving DecidableEq

structure AlertEvent where
  wallet : String
  eventType : EventType
  score : ℚ
  previousScore : Option ℚ
  emittedAt : String
  deriving DecidableEq

/-- A row of `alert_states`. -/
structure AlertState where
  alertActive : Bool
  lastScore : ℚ
  belowThresholdStreak : ℕ
  openedAt : Option String
  updatedAt : String
  deriving DecidableEq

def ESCALATION_DELTA : ℚ := 10

def RESOLUTION_CONSECUTIVE : ℕ := 3

def transition (threshold score : ℚ) (wallet now : String) (row : Option AlertState) :
    AlertState × List AlertEvent :=
  let alertActive := (row.map AlertState.alertActive).getD false
  let lastScore := (row.map AlertState.lastScore).getD 0
  let belowStreak := (row.map AlertState.belowThresholdStreak).getD 0
  let openedAt := row.bind AlertState.openedAt
  if ¬ alertActive then
    if threshold ≤ score then
      (⟨true, score, 0, some now, now⟩, [⟨wallet, .opened, score, none, now⟩])
    else (⟨false, score, 0, openedAt, now⟩, [])
  else if threshold ≤ score then
    (⟨true, score, 0, openedAt, now⟩,
      if lastScore + ESCALATION_DELTA < score then
        [⟨wallet, .escalated, score, some lastScore, now⟩]
      else [])
  else if RESOLUTION_CONSECUTIVE ≤ belowStreak + 1 then
    (⟨false, score, 0, none, now⟩, [⟨wallet, .resolved, score, some lastScore, now⟩])
  else (⟨true, score, belowStreak + 1, openedAt, now⟩, [])

structure Database where
  suppressions : Suppressions
  states : String → Option AlertState
  events : List AlertEvent

/-- `AlertDeduplicator.process`. -/
def process (threshold : ℚ) (db : Database) (now : Utc) (wallet : String) (score : ℚ) :
    Database × List AlertEvent :=
  match db.suppressions.isSuppressed now wallet with
  | some _ => (db, [])
  | none =>
    let (state, events) := transition threshold score wallet now.1.isoformat (db.states wallet)
    ({ db with
        states := Function.update db.states wallet (some state)
        events := db.events ++ events }, events)

inductive Operation where
  | add (wallet reason : String) (expiresAt : Option String)
  | delete (ruleId : ℕ)
  | process (wallet : String) (score : ℚ)

structure Call where
  now : Utc
  operation : Operation

def next (threshold : ℚ) (db : Database) (c : Call) : Database :=
  match c.operation with
  | .add wallet reason expiresAt =>
    { db with suppressions := db.suppressions.add c.now wallet reason expiresAt }
  | .delete ruleId => { db with suppressions := (db.suppressions.remove ruleId).1 }
  | .process wallet score => (process threshold db c.now wallet score).1

def run (threshold : ℚ) (calls : List Call) : Database :=
  calls.foldl (next threshold) ⟨.empty, fun _ => none, []⟩

/-- A rule is in force until the instant at which it expires. -/
def Suppression.Live (now : Utc) (r : Suppression) : Prop :=
  ∀ expiry ∈ r.expiresAt.bind fromisoformat, now.1.instant < expiry.instant

instance (now : Utc) (r : Suppression) : Decidable (r.Live now) :=
  inferInstanceAs (Decidable (∀ expiry ∈ _, _))

def Dated (expiresAt : Option String) : Prop :=
  ∀ text ∈ expiresAt, ∃ expiry : Utc, text = expiry.1.isoformat

def Operation.Dated : Operation → Prop
  | .add _ _ expiresAt => AlertStates.Dated expiresAt
  | _ => True

/-- The rules in force are those of the table, and the scores seen of each wallet, latest first,
are those that no rule suppresses. -/
structure Observation where
  rules : Suppressions
  seen : String → List ℚ

def Observation.next (o : Observation) (c : Call) : Observation :=
  match c.operation with
  | .add wallet reason expiresAt => { o with rules := o.rules.add c.now wallet reason expiresAt }
  | .delete ruleId => { o with rules := (o.rules.remove ruleId).1 }
  | .process wallet score =>
    if ∃ r ∈ o.rules.rows, r.wallet = wallet ∧ r.Live c.now then o
    else { o with seen := Function.update o.seen wallet (score :: o.seen wallet) }

def observed (calls : List Call) : Observation :=
  calls.foldl Observation.next ⟨.empty, fun _ => []⟩

def Alerting (threshold : ℚ) (seen : List ℚ) : Prop := ∃ score ∈ seen.take 3, threshold ≤ score

instance (threshold : ℚ) (seen : List ℚ) : Decidable (Alerting threshold seen) :=
  inferInstanceAs (Decidable (∃ score ∈ _, _))

/-- What a score after others makes of the alert: the kind of event, with the score and the one
before. -/
def expected (threshold : ℚ) (seen : List ℚ) (score : ℚ) : List (EventType × ℚ × Option ℚ) :=
  if threshold ≤ score then
    if ¬ Alerting threshold seen then [(.opened, score, none)]
    else if seen.headD 0 + 10 < score then [(.escalated, score, some (seen.headD 0))]
    else []
  else if Alerting threshold seen ∧ ¬ Alerting threshold (score :: seen) then
    [(.resolved, score, some (seen.headD 0))]
  else []

def history (threshold : ℚ) : List ℚ → List (EventType × ℚ × Option ℚ)
  | [] => []
  | score :: seen => history threshold seen ++ expected threshold seen score

def AlertEvent.content (e : AlertEvent) : EventType × ℚ × Option ℚ :=
  (e.eventType, e.score, e.previousScore)

def Database.eventsOf (db : Database) (wallet : String) : List (EventType × ℚ × Option ℚ) :=
  (db.events.filter fun e => decide (e.wallet = wallet)).map AlertEvent.content

section

variable {threshold score : ℚ} {seen : List ℚ} {wallet now : String} {row : Option AlertState}

/-- How many of the latest scores are below the threshold in a row. -/
def streak (threshold : ℚ) (seen : List ℚ) : ℕ :=
  (seen.takeWhile fun score => decide (score < threshold)).length

theorem streak_cons_above (h : threshold ≤ score) : streak threshold (score :: seen) = 0 := by
  rw [streak, List.takeWhile_cons_of_neg (by simpa using h), List.length_nil]

theorem streak_cons_below (h : score < threshold) :
    streak threshold (score :: seen) = streak threshold seen + 1 := by
  rw [streak, List.takeWhile_cons_of_pos (by simpa using h), List.length_cons, streak]

theorem streak_le (threshold : ℚ) (seen : List ℚ) : streak threshold seen ≤ seen.length :=
  (List.takeWhile_prefix _).length_le

/-- A score at or above the threshold is among so many of the latest where their streak is over
before. -/
theorem exists_mem_take_iff (count : ℕ) : (∃ score ∈ seen.take count, threshold ≤ score) ↔
    streak threshold seen < count ∧ streak threshold seen < seen.length := by
  induction seen generalizing count with
  | nil => simp
  | cons score seen ih =>
    cases count with
    | zero => simp
    | succ count =>
      rw [List.take_succ_cons, List.length_cons]
      rcases le_or_gt threshold score with habove | hbelow
      · rw [streak_cons_above habove]
        exact iff_of_true ⟨score, List.mem_cons_self, habove⟩ ⟨count.succ_pos, Nat.succ_pos _⟩
      · rw [streak_cons_below hbelow, Nat.succ_lt_succ_iff, Nat.succ_lt_succ_iff, ← ih]
        simp [not_le.mpr hbelow]

theorem alerting_iff : Alerting threshold seen ↔
    streak threshold seen < RESOLUTION_CONSECUTIVE ∧ streak threshold seen < seen.length :=
  exists_mem_take_iff 3

theorem alerting_cons_above (h : threshold ≤ score) : Alerting threshold (score :: seen) :=
  ⟨score, List.mem_cons_self, h⟩

theorem alerting_cons_below (h : score < threshold) : Alerting threshold (score :: seen) ↔
    streak threshold seen + 1 < RESOLUTION_CONSECUTIVE ∧ Alerting threshold seen := by
  rw [alerting_iff, alerting_iff, streak_cons_below h, List.length_cons, Nat.succ_lt_succ_iff]
  omega

structure Tracks (threshold : ℚ) (seen : List ℚ) (row : Option AlertState) : Prop where
  alertActive : (row.map AlertState.alertActive).getD false = decide (Alerting threshold seen)
  lastScore : (row.map AlertState.lastScore).getD 0 = seen.headD 0
  belowStreak : Alerting threshold seen →
    (row.map AlertState.belowThresholdStreak).getD 0 = streak threshold seen

theorem Tracks.start : Tracks threshold [] none where
  alertActive := by simp [Alerting]
  lastScore := rfl
  belowStreak h := by simp [Alerting] at h

theorem Tracks.transition (h : Tracks threshold seen row) (wallet now : String) (score : ℚ) :
    Tracks threshold (score :: seen) (some (transition threshold score wallet now row).1) ∧
      (transition threshold score wallet now row).2.map AlertEvent.content =
        expected threshold seen score := by
  unfold AlertStates.transition expected
  simp only [h.alertActive, h.lastScore, decide_eq_true_eq, RESOLUTION_CONSECUTIVE,
    ESCALATION_DELTA]
  by_cases hactive : Alerting threshold seen
  · rw [if_neg (not_not.mpr hactive), h.belowStreak hactive]
    rcases le_or_gt threshold score with habove | hbelow
    · have hstill : Alerting threshold (score :: seen) := alerting_cons_above habove
      simp only [if_pos habove, if_neg (not_not.mpr hactive)]
      refine ⟨⟨(decide_eq_true hstill).symm, rfl, fun _ => (streak_cons_above habove).symm⟩, ?_⟩
      split_ifs <;> rfl
    · have hcons : Alerting threshold (score :: seen) ↔
          streak threshold seen + 1 < RESOLUTION_CONSECUTIVE ∧ Alerting threshold seen :=
        alerting_cons_below hbelow
      simp only [if_neg (not_le.mpr hbelow)]
      split_ifs with hlong hresolved hresolved
      · have hover : ¬ Alerting threshold (score :: seen) := hresolved.2
        exact ⟨⟨(decide_eq_false hover).symm, rfl, fun hstill => absurd hstill hover⟩, rfl⟩
      · exact absurd ⟨hactive, fun hstill => absurd (hcons.mp hstill).1 (not_lt.mpr hlong)⟩
          hresolved
      · exact absurd (hcons.mpr ⟨not_le.mp hlong, hactive⟩) hresolved.2
      · have hstill := hcons.mpr ⟨not_le.mp hlong, hactive⟩
        exact ⟨⟨(decide_eq_true hstill).symm, rfl, fun _ => (streak_cons_below hbelow).symm⟩, rfl⟩
  · rw [if_pos hactive]
    rcases le_or_gt threshold score with habove | hbelow
    · have hstill : Alerting threshold (score :: seen) := alerting_cons_above habove
      simp only [if_pos habove, if_pos hactive]
      exact ⟨⟨(decide_eq_true hstill).symm, rfl, fun _ => (streak_cons_above habove).symm⟩, rfl⟩
    · have hover : ¬ Alerting threshold (score :: seen) := fun hstill =>
        hactive ((alerting_cons_below hbelow).mp hstill).2
      simp only [if_neg (not_le.mpr hbelow), if_neg fun h => hactive (And.left h)]
      exact ⟨⟨(decide_eq_false hover).symm, rfl, fun hstill => absurd hstill hover⟩, rfl⟩

theorem wallet_of_mem_transition {e : AlertEvent}
    (h : e ∈ (transition threshold score wallet now row).2) : e.wallet = wallet := by
  unfold transition at h
  dsimp only at h
  split_ifs at h <;> simp_all

theorem active_iff_live {r : Suppression} (h : Dated r.expiresAt) (now : Utc) :
    r.active now = true ↔ r.Live now := by
  unfold Suppression.active Suppression.Live
  cases hexpires : r.expiresAt with
  | none => simp
  | some text =>
    obtain ⟨expiry, rfl⟩ := h text hexpires
    have horder : now.1.isoformat < expiry.1.isoformat ↔ now.1.instant < expiry.1.instant :=
      isoformat_lt_iff (now.2.trans expiry.2.symm)
    simp [fromisoformat_isoformat, horder]

structure Agrees (threshold : ℚ) (db : Database) (o : Observation) : Prop where
  rules : db.suppressions = o.rules
  dated : ∀ r ∈ o.rules.rows, Dated r.expiresAt
  tracks : ∀ wallet, Tracks threshold (o.seen wallet) (db.states wallet)
  events : ∀ wallet, db.eventsOf wallet = history threshold (o.seen wallet)

theorem Agrees.isSuppressed_iff {db : Database} {o : Observation} (h : Agrees threshold db o)
    (now : Utc) (wallet : String) : db.suppressions.isSuppressed now wallet = none ↔
      ¬ ∃ r ∈ o.rules.rows, r.wallet = wallet ∧ r.Live now := by
  unfold Suppressions.isSuppressed
  rw [h.rules, List.find?_eq_none]
  constructor
  · rintro hnone ⟨r, hr, hwallet, hlive⟩
    apply hnone r hr
    rw [Bool.and_eq_true]
    exact ⟨decide_eq_true hwallet, (active_iff_live (h.dated r hr) now).mpr hlive⟩
  · intro hnone r hr hfound
    rw [Bool.and_eq_true] at hfound
    exact hnone ⟨r, hr, of_decide_eq_true hfound.1,
      (active_iff_live (h.dated r hr) now).mp hfound.2⟩

theorem eventsOf_append {db : Database} {events : List AlertEvent} {state : AlertState}
    {w : String} (hevents : ∀ e ∈ events, e.wallet = w) (wallet : String) :
    ({ db with
        states := Function.update db.states w (some state)
        events := db.events ++ events } : Database).eventsOf wallet =
      db.eventsOf wallet ++ if w = wallet then events.map AlertEvent.content else [] := by
  unfold Database.eventsOf
  rw [List.filter_append, List.map_append]
  congr 1
  split_ifs with hwallet
  · rw [List.filter_eq_self.mpr fun e he => decide_eq_true ((hevents e he).trans hwallet)]
  · rw [List.filter_eq_nil_iff.mpr fun e he hsame =>
      hwallet ((hevents e he).symm.trans (of_decide_eq_true hsame)), List.map_nil]

theorem Agrees.next {db : Database} {o : Observation} (h : Agrees threshold db o) {c : Call}
    (hc : c.operation.Dated) : Agrees threshold (next threshold db c) (o.next c) := by
  obtain ⟨now, operation⟩ := c
  cases operation with
  | add wallet reason expiresAt => exact {
      rules := congrArg (fun t : Suppressions => t.add now wallet reason expiresAt) h.rules
      dated := by
        intro r hr
        rcases IdTable.mem_insert.mp hr with hr | rfl
        · exact h.dated r hr
        · exact hc
      tracks := h.tracks
      events := h.events }
  | delete ruleId => exact {
      rules := congrArg (fun t : Suppressions => (t.remove ruleId).1) h.rules
      dated := fun r hr => h.dated r (List.mem_of_mem_filter hr)
      tracks := h.tracks
      events := h.events }
  | process wallet score =>
    have hsuppressed := h.isSuppressed_iff now wallet
    unfold AlertStates.next Observation.next process
    dsimp only
    cases hrule : db.suppressions.isSuppressed now wallet with
    | some r =>
      have hlive : ∃ r ∈ o.rules.rows, r.wallet = wallet ∧ r.Live now := by
        by_contra hnone
        rw [hsuppressed.mpr hnone] at hrule
        cases hrule
      rw [if_pos hlive]
      exact h
    | none =>
      rw [if_neg (hsuppressed.mp hrule)]
      have htransition :=
        (h.tracks wallet).transition wallet now.1.isoformat score
      exact {
        rules := h.rules
        dated := h.dated
        tracks := by
          intro w
          by_cases hw : w = wallet
          · subst hw
            simpa using htransition.1
          · simpa [hw] using h.tracks w
        events := by
          intro w
          rw [eventsOf_append (fun e he => wallet_of_mem_transition he), h.events w]
          by_cases hw : wallet = w
          · subst hw
            rw [if_pos rfl, htransition.2]
            simp [history]
          · simp [hw, Ne.symm hw] }

theorem agrees_run {calls : List Call} (hcalls : ∀ c ∈ calls, c.operation.Dated) :
    Agrees threshold (run threshold calls) (observed calls) := by
  have hstart : Agrees threshold ⟨.empty, fun _ => none, []⟩ ⟨.empty, fun _ => []⟩ :=
    ⟨rfl, nofun, fun _ => .start, fun _ => rfl⟩
  unfold run observed
  generalize (⟨.empty, fun _ => none, []⟩ : Database) = db at hstart ⊢
  generalize (⟨.empty, fun _ => []⟩ : Observation) = o at hstart ⊢
  induction calls generalizing db o with
  | nil => exact hstart
  | cons c calls ih =>
    exact ih (fun c' hc' => hcalls c' (List.mem_cons_of_mem c hc')) _ _
      (hstart.next (hcalls c List.mem_cons_self))

end

/-- The events stored of a wallet are those that its scores call for, of which no rule in force
leaves a trace, and its alert is active where one of the last three scores is at or above the
threshold. -/
theorem run_alerts {threshold : ℚ} {calls : List Call}
    (hcalls : ∀ c ∈ calls, c.operation.Dated) (wallet : String) :
    (run threshold calls).eventsOf wallet = history threshold ((observed calls).seen wallet) ∧
      ((((run threshold calls).states wallet).map AlertState.alertActive).getD false = true ↔
        Alerting threshold ((observed calls).seen wallet)) := by
  have h : Agrees threshold (run threshold calls) (observed calls) := agrees_run hcalls
  refine ⟨h.events wallet, ?_⟩
  rw [(h.tracks wallet).alertActive, decide_eq_true_eq]

theorem validDate_newYear : ValidDate 2026 1 1 := by decide

theorem validClock_noon : ValidClock 12 0 0 0 := by decide

def noon : Utc :=
  ⟨⟨2026, 1, 1, 12, 0, 0, 0, some 0, validDate_newYear, validClock_noon, validOffset_utc⟩, rfl⟩

/-- A wallet is alerted, and then suppressed until noon. -/
def morning : List Call :=
  [⟨⟨⟨2026, 1, 1, 9, 0, 0, 0, some 0, validDate_newYear, by decide, validOffset_utc⟩, rfl⟩,
     .process "G" 80⟩,
   ⟨⟨⟨2026, 1, 1, 9, 30, 0, 5, some 0, validDate_newYear, by decide, validOffset_utc⟩, rfl⟩,
     .add "G" "anchor" (some noon.1.isoformat)⟩,
   ⟨⟨⟨2026, 1, 1, 10, 0, 0, 0, some 0, validDate_newYear, by decide, validOffset_utc⟩, rfl⟩,
     .process "G" 95⟩]

theorem run_alerts_morning :
    (run 70 morning).eventsOf "G" = history 70 ((observed morning).seen "G") ∧
      ((((run 70 morning).states "G").map AlertState.alertActive).getD false = true ↔
        Alerting 70 ((observed morning).seen "G")) := by
  refine run_alerts ?_ "G"
  intro c hc
  simp only [morning, List.mem_cons, List.not_mem_nil, or_false] at hc
  obtain rfl | rfl | rfl := hc
  · trivial
  · rintro text ⟨⟩
    exact ⟨noon, rfl⟩
  · trivial

end AlertStates
