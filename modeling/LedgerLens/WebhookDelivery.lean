import LedgerLens.ChainSubmissionQueue
import LedgerLens.JsonText
import LedgerLens.LabelledRuns
import LedgerLens.SqlTables

/-!
# Webhook delivery

`detection/webhook_queue.py` and `detection/webhook_worker.py`: the table of deliveries, and the
tasks of any number of workers on it. Polling takes no row, so tasks may share a delivery.
-/
namespace WebhookDelivery

open ChainSubmissionQueue (Instant timedelta)
open JsonText LabelledRuns SqlTables

def MAX_ATTEMPTS : ℕ := 8
def BASE_DELAY : ℚ := 5
def MAX_DELAY : ℚ := 3600
def JITTER_RATIO : ℚ := 1 / 5

/-- `jitter` is the draw of the random source. -/
def computeBackoff (attempt : ℕ) (jitter : ℚ) : ℚ :=
  let delay := min (2 ^ attempt * BASE_DELAY) MAX_DELAY
  delay * (1 - JITTER_RATIO * jitter)

inductive Status where
  | pending
  | delivered
  | dead
  deriving DecidableEq, Repr

structure Delivery where
  id : ℕ
  subscriberId : String
  payloadJson : String
  attemptCount : ℕ
  nextAttemptAt : Instant
  lastError : Option String
  status : Status
  createdAt : Instant
  deliveredAt : Option Instant
  deriving DecidableEq, Repr

abbrev Queue := IdTable Delivery Delivery.id

def newDelivery (subscriberId : String) (payload : Json) (now : Instant) (id : ℕ) : Delivery where
  id := id
  subscriberId := subscriberId
  payloadJson := String.ofList (payload.render .default)
  attemptCount := 0
  nextAttemptAt := now
  lastError := none
  status := .pending
  createdAt := now
  deliveredAt := none

theorem newDelivery_id (subscriberId : String) (payload : Json) (now : Instant) (id : ℕ) :
    (newDelivery subscriberId payload now id).id = id := rfl

def enqueue (q : Queue) (subscriberId : String) (payload : Json) (now : Instant) : Queue :=
  q.insert (newDelivery subscriberId payload now) (newDelivery_id subscriberId payload now)

def Due (now : Instant) (d : Delivery) : Prop := d.status = .pending ∧ d.nextAttemptAt ≤ now

instance (now : Instant) (d : Delivery) : Decidable (Due now d) :=
  inferInstanceAs (Decidable (_ ∧ _))

def getDueDeliveries (q : Queue) (now : Instant) (limit : ℕ) : List Delivery :=
  ((q.rows.filter fun d => decide (Due now d)).mergeSort
    fun a b => decide (a.nextAttemptAt ≤ b.nextAttemptAt)).take limit

def Delivery.acknowledged (responseStatus : ℕ) (now : Instant) (d : Delivery) : Delivery :=
  { d with
    status := .delivered
    deliveredAt := some now
    lastError := some s!"HTTP {responseStatus}" }

def markDelivered (q : Queue) (deliveryId responseStatus : ℕ) (now : Instant) : Queue :=
  q.update (fun d => d.id = deliveryId) (Delivery.acknowledged responseStatus now) fun _ => rfl

/-- The `SELECT` of `mark_failed`. -/
def readAttempts (q : Queue) (deliveryId : ℕ) : Option ℕ :=
  (q.find? deliveryId).map Delivery.attemptCount

def Delivery.failed (attempt maxAttempts : ℕ) (error : String) (now : Instant) (jitter : ℚ)
    (d : Delivery) : Delivery :=
  if maxAttempts ≤ attempt then
    { d with attemptCount := attempt, status := .dead, lastError := some error }
  else
    { d with
      attemptCount := attempt
      nextAttemptAt := now + timedelta (computeBackoff attempt jitter)
      lastError := some error
      status := .pending }

theorem failed_id (attempt maxAttempts : ℕ) (error : String) (now : Instant) (jitter : ℚ)
    (d : Delivery) : (d.failed attempt maxAttempts error now jitter).id = d.id := by
  unfold Delivery.failed
  split_ifs <;> rfl

/-- The `UPDATE` of `mark_failed`, with the count that its `SELECT` read. -/
def writeFailed (q : Queue) (deliveryId read : ℕ) (error : String) (maxAttempts : ℕ)
    (now : Instant) (jitter : ℚ) : Queue :=
  q.update (fun d => d.id = deliveryId) (Delivery.failed (read + 1) maxAttempts error now jitter)
    (failed_id _ _ _ _ _)

def markFailed (q : Queue) (deliveryId : ℕ) (error : String) (maxAttempts : ℕ) (now : Instant)
    (jitter : ℚ) : Option Status × Queue :=
  match readAttempts q deliveryId with
  | none => (none, q)
  | some read =>
    (some (if maxAttempts ≤ read + 1 then .dead else .pending),
      writeFailed q deliveryId read error maxAttempts now jitter)

/-- How a POST ends: with a success status, an error status, a timeout or connection error by the
name of its type, or any other exception by its text. -/
inductive Outcome where
  | success (responseStatus : ℕ)
  | httpStatusError (responseStatus : ℕ)
  | unreachable (typeName : String)
  | raised (text : String)
  deriving DecidableEq, Repr

def Outcome.error : Outcome → Option String
  | .success _ => none
  | .httpStatusError responseStatus => some s!"HTTP {responseStatus}"
  | .unreachable typeName => some typeName
  | .raised text => some (String.ofList (text.toList.take 200))

/-- Where a task stands in `_deliver`. -/
inductive Phase where
  | polled
  | posted (outcome : Outcome)
  | failing (error : String) (read : ℕ)
  | done
  deriving DecidableEq, Repr

/-- The POST has been made and its outcome is not in the table yet. -/
def Phase.Unrecorded : Phase → Prop
  | .posted _ | .failing _ _ => True
  | .polled | .done => False

instance : DecidablePred Phase.Unrecorded
  | .posted _ | .failing _ _ => isTrue trivial
  | .polled | .done => isFalse id

structure Task where
  delivery : Delivery
  phase : Phase
  deriving DecidableEq, Repr

/-- The queue with the tasks of all workers, and how often each delivery has been posted. -/
structure Service where
  queue : Queue
  tasks : List Task
  attempts : ℕ → ℕ

def Service.initial : Service := ⟨.empty, [], fun _ => 0⟩

def Task.Attempting (id : ℕ) (t : Task) : Prop := t.delivery.id = id ∧ t.phase.Unrecorded

instance (id : ℕ) (t : Task) : Decidable (t.Attempting id) := inferInstanceAs (Decidable (_ ∧ _))

/-- The attempts at a delivery whose outcomes are not in the table yet. -/
def Service.unrecorded (s : Service) (id : ℕ) : ℕ :=
  s.tasks.countP fun t => decide (t.Attempting id)

def Service.setPhase (s : Service) (i : ℕ) (phase : Phase) : Service :=
  { s with tasks := s.tasks.modify i fun t => { t with phase := phase } }

def Service.countAttempt (s : Service) (id : ℕ) : Service :=
  { s with attempts := Function.update s.attempts id (s.attempts id + 1) }

inductive Action where
  | enqueue (subscriberId : String) (payload : Json)
  | poll
  | post (i : ℕ) (outcome : Outcome)
  | markDelivered (i : ℕ)
  | markDeliveredRaises (i : ℕ) (text : String)
  | readAttempts (i : ℕ)
  | writeFailed (i : ℕ) (jitter : ℚ)
  | stop (i : ℕ)

structure Event where
  action : Action
  now : Instant

/-- Every poll gives each delivery that it returns a task of its own. A task stops where it finds no
active subscriber, and where a call of the queue raises. -/
def next (s : Service) (e : Event) : Option Service :=
  match e.action with
  | .enqueue subscriberId payload =>
    some { s with queue := enqueue s.queue subscriberId payload e.now }
  | .poll =>
    some { s with tasks := s.tasks ++ (getDueDeliveries s.queue e.now 50).map (⟨·, .polled⟩) }
  | .post i outcome => do
    let t ← s.tasks[i]?
    match t.phase with
    | .polled => some ((s.countAttempt t.delivery.id).setPhase i (.posted outcome))
    | _ => none
  | .markDelivered i => do
    let t ← s.tasks[i]?
    match t.phase with
    | .posted (.success responseStatus) =>
      let queue := markDelivered s.queue t.delivery.id responseStatus e.now
      some ({ s with queue := queue }.setPhase i .done)
    | _ => none
  | .markDeliveredRaises i text => do
    let t ← s.tasks[i]?
    match t.phase with
    | .posted (.success _) => some (s.setPhase i (.posted (.raised text)))
    | _ => none
  | .readAttempts i => do
    let t ← s.tasks[i]?
    match t.phase with
    | .posted outcome =>
      let error ← outcome.error
      match readAttempts s.queue t.delivery.id with
      | none => some (s.setPhase i .done)
      | some read => some (s.setPhase i (.failing error read))
    | _ => none
  | .writeFailed i jitter => do
    let t ← s.tasks[i]?
    match t.phase with
    | .failing error read =>
      let queue := writeFailed s.queue t.delivery.id read error MAX_ATTEMPTS e.now jitter
      some ({ s with queue := queue }.setPhase i .done)
    | _ => none
  | .stop i => some (s.setPhase i .done)

def Steps (s : Service) (e : Event) (s' : Service) : Prop := next s e = some s'

/-- The delivery of a task that posts is still pending and has no other attempt unrecorded, and no
task stops with an attempt unrecorded. -/
def Careful (s : Service) (e : Event) : Prop :=
  match e.action with
  | .post i _ => ∀ t ∈ s.tasks[i]?,
      s.unrecorded t.delivery.id = 0 ∧
        ∃ d ∈ s.queue.rows, d.id = t.delivery.id ∧ d.status = .pending
  | .stop i => ∀ t ∈ s.tasks[i]?, ¬ t.phase.Unrecorded
  | _ => True

instance (s : Service) (e : Event) : Decidable (Careful s e) := by
  unfold Careful
  split <;> infer_instance

def CarefulSteps (s : Service) (e : Event) (s' : Service) : Prop := Steps s e s' ∧ Careful s e

/-- Every attempt is in the count, acknowledged, or not recorded yet. -/
structure Accounted (s : Service) : Prop where
  counted : ∀ d ∈ s.queue.rows, s.attempts d.id =
    d.attemptCount + s.unrecorded d.id + if d.status = .delivered then 1 else 0
  bounded : ∀ d ∈ s.queue.rows, s.attempts d.id ≤ MAX_ATTEMPTS

structure Invariant (s : Service) : Prop where
  fresh : ∀ id, s.queue.find? id = none → s.attempts id = 0 ∧ s.unrecorded id = 0
  counted : ∀ d ∈ s.queue.rows, s.attempts d.id =
    d.attemptCount + s.unrecorded d.id + if d.status = .delivered then 1 else 0
  single : ∀ d ∈ s.queue.rows, s.unrecorded d.id ≤ if d.status = .pending then 1 else 0
  room : ∀ d ∈ s.queue.rows,
    d.attemptCount + (if d.status = .dead then 0 else 1) ≤ MAX_ATTEMPTS
  current : ∀ t ∈ s.tasks, ∀ error read, t.phase = .failing error read →
    ∀ d ∈ s.queue.rows, d.id = t.delivery.id → read = d.attemptCount

theorem invariant_initial : Invariant .initial where
  fresh _ _ := ⟨rfl, rfl⟩
  counted _ h := nomatch h
  single _ h := nomatch h
  room _ h := nomatch h
  current _ h := nomatch h

theorem Invariant.accounted {s : Service} (h : Invariant s) : Accounted s := by
  refine ⟨h.counted, fun d hd => ?_⟩
  have hcounted := h.counted d hd
  have hsingle := h.single d hd
  have hroom := h.room d hd
  cases hstatus : d.status with
  | pending =>
    simp [hstatus] at hcounted hsingle hroom
    omega
  | delivered =>
    simp [hstatus] at hcounted hsingle hroom
    omega
  | dead =>
    simp [hstatus] at hcounted hsingle hroom
    omega

theorem unrecorded_pos {s : Service} {t : Task} {id : ℕ} (h : t ∈ s.tasks)
    (hattempting : t.Attempting id) : 0 < s.unrecorded id :=
  List.countP_pos_iff.mpr ⟨t, h, decide_eq_true hattempting⟩

theorem tasks_setPhase {s : Service} {i : ℕ} {t : Task} (h : s.tasks[i]? = some t)
    (phase : Phase) : (s.setPhase i phase).tasks = s.tasks.set i { t with phase := phase } := by
  rw [Service.setPhase, List.modify_eq_set_getElem?, h]
  rfl

theorem mem_setPhase {s : Service} {i : ℕ} {t t' : Task} (h : s.tasks[i]? = some t)
    {phase : Phase} (h' : t' ∈ (s.setPhase i phase).tasks) :
    t' ∈ s.tasks ∨ t' = { t with phase := phase } := by
  rw [tasks_setPhase h] at h'
  exact List.mem_or_eq_of_mem_set h'

theorem unrecorded_setPhase {s : Service} {i : ℕ} {t : Task} (h : s.tasks[i]? = some t)
    (phase : Phase) (id : ℕ) :
    (s.setPhase i phase).unrecorded id + (if t.Attempting id then 1 else 0) =
      s.unrecorded id + if t.delivery.id = id ∧ phase.Unrecorded then 1 else 0 := by
  obtain ⟨hi, rfl⟩ := List.getElem?_eq_some_iff.mp h
  have hpos : s.tasks[i].Attempting id → 0 < s.unrecorded id :=
    unrecorded_pos (List.getElem_mem hi)
  unfold Service.unrecorded at hpos ⊢
  simp only [tasks_setPhase h, List.countP_set hi, decide_eq_true_eq]
  change _ - _ + (if s.tasks[i].delivery.id = id ∧ phase.Unrecorded then 1 else 0) + _ = _
  by_cases hattempting : s.tasks[i].Attempting id
  · have := hpos hattempting
    simp only [if_pos hattempting]
    omega
  · simp only [if_neg hattempting]
    omega

theorem unrecorded_post {s : Service} {i : ℕ} {t : Task} (h : s.tasks[i]? = some t)
    (hphase : t.phase = .polled) (outcome : Outcome) (id : ℕ) :
    (s.setPhase i (.posted outcome)).unrecorded id =
      s.unrecorded id + if t.delivery.id = id then 1 else 0 := by
  have hset := unrecorded_setPhase h (.posted outcome) id
  have hidle : ¬ t.Attempting id := by
    rintro ⟨-, hunrecorded⟩
    rw [hphase] at hunrecorded
    exact hunrecorded
  have hiff : (t.delivery.id = id ∧ (Phase.posted outcome).Unrecorded) ↔ t.delivery.id = id :=
    and_iff_left trivial
  rw [if_neg hidle, if_congr hiff rfl rfl] at hset
  exact hset

theorem unrecorded_record {s : Service} {i : ℕ} {t : Task} (h : s.tasks[i]? = some t)
    (hphase : t.phase.Unrecorded) (id : ℕ) :
    (s.setPhase i .done).unrecorded id + (if t.delivery.id = id then 1 else 0) =
      s.unrecorded id := by
  have hset := unrecorded_setPhase h .done id
  have hiff : t.Attempting id ↔ t.delivery.id = id := and_iff_left hphase
  have hended : ¬ (t.delivery.id = id ∧ Phase.done.Unrecorded) := fun hboth => hboth.2
  rw [if_neg hended, if_congr hiff rfl rfl] at hset
  exact hset

theorem unrecorded_same {s : Service} {i : ℕ} {t : Task} (h : s.tasks[i]? = some t)
    {phase : Phase} (hsame : phase.Unrecorded ↔ t.phase.Unrecorded) (id : ℕ) :
    (s.setPhase i phase).unrecorded id = s.unrecorded id := by
  have hset := unrecorded_setPhase h phase id
  have hiff : (t.delivery.id = id ∧ phase.Unrecorded) ↔ t.Attempting id :=
    and_congr_right fun _ => hsame
  rw [if_congr hiff rfl rfl] at hset
  omega

theorem Invariant.setPhase {s : Service} {i : ℕ} {t : Task} {phase : Phase} (h : Invariant s)
    (ht : s.tasks[i]? = some t) (hsame : phase.Unrecorded ↔ t.phase.Unrecorded)
    (hcurrent : ∀ error read, phase = .failing error read →
      ∀ d ∈ s.queue.rows, d.id = t.delivery.id → read = d.attemptCount) :
    Invariant (s.setPhase i phase) := by
  constructor
  · intro id hnone
    rw [unrecorded_same ht hsame]
    exact h.fresh id hnone
  · intro d hd
    rw [unrecorded_same ht hsame]
    exact h.counted d hd
  · intro d hd
    rw [unrecorded_same ht hsame]
    exact h.single d hd
  · exact h.room
  · intro t' ht' error read hphase d hd hid
    rcases mem_setPhase ht ht' with hold | rfl
    · exact h.current t' hold error read hphase d hd hid
    · exact hcurrent error read hphase d hd hid

theorem Invariant.attempting {s : Service} {i : ℕ} {t : Task} (h : Invariant s)
    (ht : s.tasks[i]? = some t) (hphase : t.phase.Unrecorded) :
    s.unrecorded t.delivery.id = 1 ∧
      ∀ d ∈ s.queue.rows, d.id = t.delivery.id → d.status = .pending := by
  have hpos := unrecorded_pos (List.mem_of_getElem? ht) ⟨rfl, hphase⟩
  have hpending (d : Delivery) (hd : d ∈ s.queue.rows) (hid : d.id = t.delivery.id) :
      d.status = .pending := by
    have hsingle := h.single d hd
    rw [hid] at hsingle
    by_contra hother
    rw [if_neg hother] at hsingle
    omega
  refine ⟨?_, hpending⟩
  cases hfind : s.queue.find? t.delivery.id with
  | none =>
    have := (h.fresh _ hfind).2
    omega
  | some d =>
    obtain ⟨hd, hid⟩ := IdTable.find?_eq_some.mp hfind
    have hsingle := h.single d hd
    rw [hpending d hd hid, if_pos rfl, hid] at hsingle
    omega

theorem Invariant.record {s : Service} {i : ℕ} {t : Task} {set : Delivery → Delivery}
    (h : Invariant s) (ht : s.tasks[i]? = some t) (hphase : t.phase.Unrecorded)
    (keeps : ∀ d, (set d).id = d.id)
    (hset : ∀ d ∈ s.queue.rows, d.id = t.delivery.id → d.status = .pending →
      (set d).attemptCount + (if (set d).status = .delivered then 1 else 0) = d.attemptCount + 1 ∧
      (set d).attemptCount + (if (set d).status = .dead then 0 else 1) ≤ MAX_ATTEMPTS) :
    Invariant ({ s with
      queue := s.queue.update (fun d => d.id = t.delivery.id) set keeps }.setPhase i .done) := by
  obtain ⟨hone, hpending⟩ := h.attempting ht hphase
  let queue := s.queue.update (fun d => d.id = t.delivery.id) set keeps
  let s' : Service := { s with queue := queue }
  have hrows {d' : Delivery} (hd' : d' ∈ queue.rows) :
      ∃ d ∈ s.queue.rows, (if d.id = t.delivery.id then set d else d) = d' :=
    IdTable.mem_update.mp hd'
  have hsum (id : ℕ) : (s'.setPhase i .done).unrecorded id +
      (if t.delivery.id = id then 1 else 0) = s.unrecorded id :=
    unrecorded_record (s := s') ht hphase id
  have hself : (s'.setPhase i .done).unrecorded t.delivery.id = 0 := by
    have := hsum t.delivery.id
    rw [if_pos rfl] at this
    omega
  have hother (id : ℕ) (hid : t.delivery.id ≠ id) :
      (s'.setPhase i .done).unrecorded id = s.unrecorded id := by
    have := hsum id
    rw [if_neg hid] at this
    exact this
  constructor
  · intro id hnone
    have hnone : s.queue.find? id = none := by
      change queue.find? id = none at hnone
      rw [IdTable.find?_update, Option.map_eq_none_iff] at hnone
      exact hnone
    obtain ⟨hattempts, hzero⟩ := h.fresh id hnone
    refine ⟨hattempts, ?_⟩
    have := hsum id
    rw [hzero] at this
    exact Nat.eq_zero_of_add_eq_zero_right this
  · intro d' hd'
    obtain ⟨d, hd, rfl⟩ := hrows hd'
    have hcounted := h.counted d hd
    by_cases hid : d.id = t.delivery.id
    · have hpend := hpending d hd hid
      have hgrown := (hset d hd hid hpend).1
      rw [if_pos hid, keeps, hid, hself]
      rw [hpend, if_neg nofun, hid, hone] at hcounted
      change s.attempts t.delivery.id = _
      omega
    · rw [if_neg hid, hother d.id (Ne.symm hid)]
      exact hcounted
  · intro d' hd'
    obtain ⟨d, hd, rfl⟩ := hrows hd'
    by_cases hid : d.id = t.delivery.id
    · rw [if_pos hid, keeps, hid, hself]
      exact Nat.zero_le _
    · rw [if_neg hid, hother d.id (Ne.symm hid)]
      exact h.single d hd
  · intro d' hd'
    obtain ⟨d, hd, rfl⟩ := hrows hd'
    by_cases hid : d.id = t.delivery.id
    · rw [if_pos hid]
      exact (hset d hd hid (hpending d hd hid)).2
    · rw [if_neg hid]
      exact h.room d hd
  · intro t' ht' error read hfailing d' hd' hid'
    -- A task with an outcome to record belongs to another delivery.
    have hne : t.delivery.id ≠ t'.delivery.id := by
      intro hsame
      have hattempting : t'.Attempting t.delivery.id :=
        ⟨hsame.symm, by rw [hfailing]; exact trivial⟩
      exact absurd hself (unrecorded_pos ht' hattempting).ne'
    obtain ⟨d, hd, rfl⟩ := hrows hd'
    by_cases hid : d.id = t.delivery.id
    · rw [if_pos hid, keeps] at hid'
      exact absurd (hid.symm.trans hid') hne
    · rw [if_neg hid] at hid' ⊢
      rcases mem_setPhase (s := s') ht ht' with hold | rfl
      · exact h.current t' hold error read hfailing d hd hid'
      · exact absurd rfl hne

theorem Invariant.enqueue {s : Service} (h : Invariant s) (subscriberId : String) (payload : Json)
    (now : Instant) :
    Invariant { s with queue := enqueue s.queue subscriberId payload now } := by
  let d' := newDelivery subscriberId payload now (s.queue.sequence + 1)
  have hrows : (WebhookDelivery.enqueue s.queue subscriberId payload now).rows =
      s.queue.rows ++ [d'] := rfl
  have hnew : s.queue.find? d'.id = none := by
    cases hfind : s.queue.find? d'.id with
    | none => rfl
    | some d =>
      obtain ⟨hd, hid⟩ := IdTable.find?_eq_some.mp hfind
      have hbound := s.queue.bounded d hd
      have hid : d.id = s.queue.sequence + 1 := hid
      omega
  obtain ⟨hattempts, hunrecorded⟩ := h.fresh _ hnew
  constructor
  · intro id hnone
    apply h.fresh id
    cases hfind : s.queue.find? id with
    | none => rfl
    | some d =>
      have hkept : (WebhookDelivery.enqueue s.queue subscriberId payload now).find? id = some d :=
        IdTable.find?_insert hfind
      exact absurd (hkept.symm.trans hnone) nofun
  · intro d hd
    rcases List.mem_append.mp (hrows ▸ hd) with hd | hd
    · exact h.counted d hd
    · obtain rfl := List.mem_singleton.mp hd
      change s.attempts d'.id = 0 + s.unrecorded d'.id + 0
      rw [hattempts, hunrecorded]
  · intro d hd
    rcases List.mem_append.mp (hrows ▸ hd) with hd | hd
    · exact h.single d hd
    · obtain rfl := List.mem_singleton.mp hd
      change s.unrecorded d'.id ≤ 1
      omega
  · intro d hd
    rcases List.mem_append.mp (hrows ▸ hd) with hd | hd
    · exact h.room d hd
    · obtain rfl := List.mem_singleton.mp hd
      change 0 + 1 ≤ MAX_ATTEMPTS
      decide
  · intro t ht error read hphase d hd hid
    rcases List.mem_append.mp (hrows ▸ hd) with hd | hd
    · exact h.current t ht error read hphase d hd hid
    · obtain rfl := List.mem_singleton.mp hd
      have hattempting : t.Attempting d'.id := ⟨hid.symm, by rw [hphase]; exact trivial⟩
      exact absurd hunrecorded (unrecorded_pos ht hattempting).ne'

theorem Invariant.poll {s : Service} (h : Invariant s) (due : List Delivery) :
    Invariant { s with tasks := s.tasks ++ due.map (⟨·, .polled⟩) } := by
  have hsame (id : ℕ) : ({ s with tasks := s.tasks ++ due.map (⟨·, .polled⟩) } : Service).unrecorded
      id = s.unrecorded id := by
    simp [Service.unrecorded, List.countP_map, Task.Attempting, Phase.Unrecorded, Function.comp_def]
  constructor
  · intro id hnone
    rw [hsame]
    exact h.fresh id hnone
  · intro d hd
    rw [hsame]
    exact h.counted d hd
  · intro d hd
    rw [hsame]
    exact h.single d hd
  · exact h.room
  · intro t ht error read hphase d hd hid
    rcases List.mem_append.mp ht with ht | ht
    · exact h.current t ht error read hphase d hd hid
    · obtain ⟨d', -, rfl⟩ := List.mem_map.mp ht
      cases hphase

theorem Invariant.post {s : Service} {i : ℕ} {t : Task} (h : Invariant s) {outcome : Outcome}
    (ht : s.tasks[i]? = some t) (hphase : t.phase = .polled)
    (hnone : s.unrecorded t.delivery.id = 0)
    (hpending : ∃ d ∈ s.queue.rows, d.id = t.delivery.id ∧ d.status = .pending) :
    Invariant ((s.countAttempt t.delivery.id).setPhase i (.posted outcome)) := by
  obtain ⟨d₀, hd₀, hid₀, hstatus⟩ := hpending
  let s' := s.countAttempt t.delivery.id
  have hsum (id : ℕ) : (s'.setPhase i (.posted outcome)).unrecorded id =
      s.unrecorded id + if t.delivery.id = id then 1 else 0 :=
    unrecorded_post (s := s') ht hphase outcome id
  have hself : (s'.setPhase i (.posted outcome)).unrecorded t.delivery.id = 1 := by
    rw [hsum, if_pos rfl, hnone]
  have hother {id : ℕ} (hid : id ≠ t.delivery.id) :
      (s'.setPhase i (.posted outcome)).unrecorded id = s.unrecorded id ∧
        s'.attempts id = s.attempts id := by
    refine ⟨?_, Function.update_of_ne hid _ _⟩
    rw [hsum, if_neg (Ne.symm hid), Nat.add_zero]
  have heq {d : Delivery} (hd : d ∈ s.queue.rows) (hid : d.id = t.delivery.id) : d = d₀ :=
    IdTable.eq_of_id_eq hd hd₀ (hid.trans hid₀.symm)
  constructor
  · intro id hfind
    have hid : id ≠ t.delivery.id := by
      rintro rfl
      have := IdTable.find?_eq_some.mpr ⟨hd₀, hid₀⟩
      exact absurd (this.symm.trans hfind) nofun
    obtain ⟨hunrecorded, hattempts⟩ := hother hid
    obtain ⟨hzero, hclear⟩ := h.fresh id hfind
    exact ⟨hattempts.trans hzero, hunrecorded.trans hclear⟩
  · intro d hd
    have hcounted := h.counted d hd
    change s'.attempts d.id = _
    by_cases hid : d.id = t.delivery.id
    · rw [heq hd hid] at hcounted ⊢
      rw [hid₀, hnone, hstatus, if_neg nofun] at hcounted
      rw [hid₀, hself, hstatus, if_neg nofun]
      have hgrown : s'.attempts t.delivery.id = s.attempts t.delivery.id + 1 :=
        Function.update_self _ _ _
      omega
    · obtain ⟨hunrecorded, hattempts⟩ := hother hid
      rw [hunrecorded, hattempts]
      exact hcounted
  · intro d hd
    by_cases hid : d.id = t.delivery.id
    · rw [heq hd hid, hid₀, hself, hstatus, if_pos rfl]
    · rw [(hother hid).1]
      exact h.single d hd
  · exact h.room
  · intro t' ht' error read hfailing d hd hid
    rcases mem_setPhase (s := s') ht ht' with hold | rfl
    · exact h.current t' hold error read hfailing d hd hid
    · cases hfailing

/-- Recording the outcome of an attempt leaves every other delivery as it is, and each that is
delivered or dead is another one. -/
theorem Invariant.settled_stays {s : Service} {i : ℕ} {t : Task} {set : Delivery → Delivery}
    (h : Invariant s) (ht : s.tasks[i]? = some t) (hphase : t.phase.Unrecorded) {d : Delivery}
    (hd : d ∈ s.queue.rows) (hsettled : d.status ≠ .pending) :
    d ∈ s.queue.rows.map fun d => if d.id = t.delivery.id then set d else d := by
  refine List.mem_map.mpr ⟨d, hd, if_neg ?_⟩
  exact fun hid => hsettled ((h.attempting ht hphase).2 d hd hid)

theorem failed_counts {d : Delivery} {read : ℕ} {error : String} {now : Instant} {jitter : ℚ}
    (hread : read = d.attemptCount) (hroom : d.attemptCount + 1 ≤ MAX_ATTEMPTS) :
    let d' := d.failed (read + 1) MAX_ATTEMPTS error now jitter
    d'.attemptCount + (if d'.status = .delivered then 1 else 0) = d.attemptCount + 1 ∧
      d'.attemptCount + (if d'.status = .dead then 0 else 1) ≤ MAX_ATTEMPTS := by
  subst hread
  by_cases hlast : MAX_ATTEMPTS ≤ d.attemptCount + 1
  · simp only [Delivery.failed, if_pos hlast]
    simpa using hroom
  · simp only [Delivery.failed, if_neg hlast]
    simp
    omega

/-- The two statements of a failure report that nothing comes between are `mark_failed`. -/
theorem markFailed_alone {s u v : Service} {i : ℕ} {jitter : ℚ} {now now' : Instant}
    (hread : Steps s ⟨.readAttempts i, now⟩ u) (hwrite : Steps u ⟨.writeFailed i jitter, now'⟩ v) :
    ∃ t error, s.tasks[i]? = some t ∧
      v.queue = (markFailed s.queue t.delivery.id error MAX_ATTEMPTS now' jitter).2 := by
  obtain ⟨t, ht, hread⟩ := Option.bind_eq_some_iff.mp hread
  obtain ⟨t', ht', hwrite⟩ := Option.bind_eq_some_iff.mp hwrite
  split at hread
  · obtain ⟨error, -, hread⟩ := Option.bind_eq_some_iff.mp hread
    refine ⟨t, error, ht, ?_⟩
    obtain ⟨hi, -⟩ := List.getElem?_eq_some_iff.mp ht
    have hset (phase : Phase) :
        (s.setPhase i phase).tasks[i]? = some { t with phase := phase } := by
      rw [tasks_setPhase ht, List.getElem?_set_self hi]
    split at hread
    · obtain rfl := Option.some.inj hread
      obtain rfl := Option.some.inj ((hset .done).symm.trans ht')
      cases hwrite
    · rename_i read hattempts
      obtain rfl := Option.some.inj hread
      obtain rfl := Option.some.inj ((hset (.failing error read)).symm.trans ht')
      obtain rfl := Option.some.inj hwrite
      rw [markFailed, hattempts]
      rfl
  · cases hread

theorem Invariant.readAttempts {s : Service} {i : ℕ} {t : Task} (h : Invariant s)
    (ht : s.tasks[i]? = some t) (hphase : t.phase.Unrecorded) (error : String) :
    ∃ read, readAttempts s.queue t.delivery.id = some read ∧
      Invariant (s.setPhase i (.failing error read)) := by
  cases hfind : s.queue.find? t.delivery.id with
  | none =>
    have hone := (h.attempting ht hphase).1
    rw [(h.fresh _ hfind).2] at hone
    cases hone
  | some found =>
    refine ⟨found.attemptCount, congrArg (Option.map Delivery.attemptCount) hfind, ?_⟩
    have hboth : (Phase.failing error found.attemptCount).Unrecorded ↔ t.phase.Unrecorded :=
      iff_of_true trivial hphase
    apply h.setPhase ht hboth
    intro error' read' heq d hd hid
    obtain ⟨rfl, rfl⟩ := Phase.failing.inj heq
    have hsame := IdTable.find?_eq_some.mpr ⟨hd, hid⟩
    rw [Option.some.inj (hfind.symm.trans hsame)]

theorem Invariant.stop {s : Service} {i : ℕ} (h : Invariant s)
    (hcareful : ∀ t ∈ s.tasks[i]?, ¬ t.phase.Unrecorded) : Invariant (s.setPhase i .done) := by
  cases ht : s.tasks[i]? with
  | none =>
    have hsame : s.setPhase i .done = s := by
      rw [Service.setPhase, List.modify_eq_set_getElem?, ht]
      rfl
    rw [hsame]
    exact h
  | some t => exact h.setPhase ht (iff_of_false id (hcareful t ht)) nofun

/-- A careful step keeps the invariant, and every delivery that is delivered or dead. -/
theorem Invariant.step {s s' : Service} {e : Event} (h : Invariant s)
    (hstep : CarefulSteps s e s') :
    Invariant s' ∧ ∀ d ∈ s.queue.rows, d.status ≠ .pending → d ∈ s'.queue.rows := by
  obtain ⟨hnext, hcareful⟩ := hstep
  obtain ⟨action, now⟩ := e
  cases action with
  | enqueue subscriberId payload =>
    obtain rfl := Option.some.inj hnext
    refine ⟨h.enqueue subscriberId payload now, fun d hd _ => ?_⟩
    exact List.mem_append_left _ hd
  | poll =>
    obtain rfl := Option.some.inj hnext
    exact ⟨h.poll _, fun d hd _ => hd⟩
  | post i outcome =>
    obtain ⟨t, ht, hnext⟩ := Option.bind_eq_some_iff.mp hnext
    obtain ⟨hnone, hpending⟩ := hcareful t ht
    cases hphase : t.phase with
    | polled =>
      simp only [hphase] at hnext
      obtain rfl := Option.some.inj hnext
      exact ⟨h.post ht hphase hnone hpending, fun d hd _ => hd⟩
    | posted | failing | done => simp [hphase] at hnext
  | markDelivered i =>
    obtain ⟨t, ht, hnext⟩ := Option.bind_eq_some_iff.mp hnext
    split at hnext
    · rename_i responseStatus hphase
      obtain rfl := Option.some.inj hnext
      have hattempting : t.phase.Unrecorded := by rw [hphase]; exact trivial
      refine ⟨h.record ht hattempting _ fun d hd _ hpending => ?_,
        fun d hd hsettled => h.settled_stays ht hattempting hd hsettled⟩
      have hroom := h.room d hd
      rw [hpending, if_neg nofun] at hroom
      exact ⟨rfl, hroom⟩
    · cases hnext
  | markDeliveredRaises i text =>
    obtain ⟨t, ht, hnext⟩ := Option.bind_eq_some_iff.mp hnext
    split at hnext
    · rename_i hphase
      obtain rfl := Option.some.inj hnext
      refine ⟨h.setPhase ht ?_ nofun, fun d hd _ => hd⟩
      rw [hphase]
      exact Iff.rfl
    · cases hnext
  | readAttempts i =>
    obtain ⟨t, ht, hnext⟩ := Option.bind_eq_some_iff.mp hnext
    split at hnext
    · rename_i outcome hphase
      obtain ⟨error, herror, hnext⟩ := Option.bind_eq_some_iff.mp hnext
      have hattempting : t.phase.Unrecorded := by rw [hphase]; exact trivial
      obtain ⟨read, hread, hkept⟩ := h.readAttempts ht hattempting error
      simp only [hread] at hnext
      obtain rfl := Option.some.inj hnext
      exact ⟨hkept, fun d hd _ => hd⟩
    · cases hnext
  | writeFailed i jitter =>
    obtain ⟨t, ht, hnext⟩ := Option.bind_eq_some_iff.mp hnext
    split at hnext
    · rename_i error read hphase
      obtain rfl := Option.some.inj hnext
      have hattempting : t.phase.Unrecorded := by rw [hphase]; exact trivial
      refine ⟨h.record ht hattempting _ fun d hd hid hpending => ?_,
        fun d hd hsettled => h.settled_stays ht hattempting hd hsettled⟩
      have hread := h.current t (List.mem_of_getElem? ht) error read hphase d hd hid
      have hroom := h.room d hd
      rw [hpending, if_neg nofun] at hroom
      exact failed_counts hread hroom
    · cases hnext
  | stop i =>
    obtain rfl := Option.some.inj hnext
    exact ⟨h.stop hcareful, fun d hd _ => hd⟩

/-- Where every post is of a pending delivery without another attempt under way, deliveries that
are delivered or dead stay as they are, and every attempt is accounted for. -/
theorem settled_and_accounted {s s' : Service} {before after : List Event}
    (hbefore : Run CarefulSteps .initial before s) (hafter : Run CarefulSteps s after s') :
    (∀ d ∈ s.queue.rows, d.status ≠ .pending → d ∈ s'.queue.rows) ∧ Accounted s' := by
  have hinv : Invariant s :=
    hbefore.invariant (fun _ _ _ h hstep => (h.step hstep).1) invariant_initial
  suffices h : Invariant s' ∧ ∀ d ∈ s.queue.rows, d.status ≠ .pending → d ∈ s'.queue.rows from
    ⟨h.2, h.1.accounted⟩
  clear hbefore
  induction hafter with
  | refl => exact ⟨hinv, fun d hd _ => hd⟩
  | tail _ hstep ih =>
    obtain ⟨hinv, hkept⟩ := ih
    obtain ⟨hinv', hkept'⟩ := hinv.step hstep
    exact ⟨hinv', fun d hd hsettled => hkept' d (hkept d hd hsettled) hsettled⟩

section Examples

/-- A delivery that fails once and then succeeds. -/
def redelivered : List Event :=
  [⟨.enqueue "sub" .null, 0⟩, ⟨.poll, 0⟩, ⟨.post 0 (.httpStatusError 503), 1⟩, ⟨.readAttempts 0, 2⟩,
    ⟨.writeFailed 0 0, 2⟩, ⟨.poll, 10000002⟩, ⟨.post 1 (.success 200), 10000003⟩,
    ⟨.markDelivered 1, 10000004⟩]

/-- Two workers poll a delivery, which the first delivers and the second does not. -/
def shared : List Event :=
  [⟨.enqueue "sub" .null, 0⟩, ⟨.poll, 0⟩, ⟨.poll, 0⟩, ⟨.post 0 (.success 200), 1⟩,
    ⟨.post 1 (.unreachable "ReadTimeout"), 1⟩, ⟨.markDelivered 0, 2⟩]

def reported : List Event := [⟨.readAttempts 1, 3⟩, ⟨.writeFailed 1 0, 3⟩]

theorem settled_and_accounted_redelivered : ∃ s : Service,
    (s.queue.rows.map fun d => (d.status, d.attemptCount, s.attempts d.id)) = [(.delivered, 1, 2)] ∧
      Accounted s := by
  have hrun : (redelivered.foldlM (fun s e => if Careful s e then next s e else none)
      Service.initial).any (fun s => decide ((s.queue.rows.map fun d =>
        (d.status, d.attemptCount, s.attempts d.id)) = [(.delivered, 1, 2)])) = true := by
    decide +kernel
  obtain ⟨s, hs, hrows⟩ := (Option.any_eq_true _ _).mp hrun
  have hsteps : Run CarefulSteps .initial redelivered s := run_iff_foldlM.mpr hs
  exact ⟨s, of_decide_eq_true hrows, (settled_and_accounted hsteps (.refl s)).2⟩

/-- A delivery that was delivered is pending again. -/
theorem delivered_reopened : ¬ ∀ (before after : List Event) (s s' : Service),
    Run Steps .initial before s → Run Steps s after s' →
      ∀ d ∈ s.queue.rows, d.status ≠ .pending → ∀ d' ∈ s'.queue.rows, d'.id = d.id →
        d'.status = d.status := by
  intro h
  have hrun : (shared.foldlM (fun s e => if True then next s e else none) Service.initial).any
      (fun s => (reported.foldlM (fun s e => if True then next s e else none) s).any fun s' =>
        decide (∃ d ∈ s.queue.rows, d.status = .delivered ∧
          ∃ d' ∈ s'.queue.rows, d'.id = d.id ∧ d'.status = .pending)) = true := by
    decide +kernel
  obtain ⟨s, hs, hrest⟩ := (Option.any_eq_true _ _).mp hrun
  obtain ⟨s', hs', hrows⟩ := (Option.any_eq_true _ _).mp hrest
  obtain ⟨d, hd, hdelivered, d', hd', hid, hpending⟩ := of_decide_eq_true hrows
  have hsame := h shared reported s s' ((run_iff_foldlM.mpr hs).mono fun _ _ _ hstep => hstep.1)
    ((run_iff_foldlM.mpr hs').mono fun _ _ _ hstep => hstep.1) d hd
    (by rw [hdelivered]; exact nofun) d' hd' hid
  rw [hpending, hdelivered] at hsame
  cases hsame

end Examples

end WebhookDelivery
