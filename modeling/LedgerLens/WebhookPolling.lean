import LedgerLens.StableBatches
import LedgerLens.WebhookDelivery

/-!
# Polling rounds of the webhook worker

The loop of `run_delivery_worker` in `detection/webhook_worker.py`: each round polls a limited batch
of `detection/webhook_queue.py` and attempts the deliveries whose subscriber is active.
-/
namespace WebhookPolling

open ChainSubmissionQueue (Instant timedelta)
open SqlTables StableBatches WebhookDelivery

/-- A row of the registry, without the columns that only the POST needs, and whether one of the keys
of the environment decrypts its secret. -/
structure Subscriber where
  subscriberId : String
  secretReadable : Bool
  active : Bool
  deriving DecidableEq, Repr

def findRow (registry : List Subscriber) (subscriberId : String) : Option Subscriber :=
  registry.find? fun s => s.subscriberId = subscriberId

def getSubscriber (registry : List Subscriber) (subscriberId : String) :
    Except String (Option Subscriber) :=
  match findRow registry subscriberId with
  | none => .ok none
  | some sub =>
    if sub.secretReadable then .ok (some sub)
    else .error "Unable to decrypt secret with current or previous encryption key"

/-- How an attempt ends, when, and the draw of the random source for the next one. -/
structure Attempt where
  outcome : Outcome
  now : Instant
  jitter : ℚ

/-- A time at which the queue is polled, and what would become of an attempt at each delivery. -/
structure Round where
  now : Instant
  attempt : ℕ → Attempt

/-- The default of `get_due_deliveries`. -/
def LIMIT : ℕ := 50

section Rounds

variable (registry : List Subscriber)

/-- `sub and sub.active`. A lookup that raises ends its own task, and the others of the round go
on. -/
def isActive (d : Delivery) : Bool :=
  match getSubscriber registry d.subscriberId with
  | .ok (some sub) => sub.active
  | _ => false

def deliver (q : Queue) (d : Delivery) (a : Attempt) : Queue :=
  match a.outcome with
  | .success responseStatus => markDelivered q d.id responseStatus a.now
  | .httpStatusError responseStatus =>
    (markFailed q d.id s!"HTTP {responseStatus}" MAX_ATTEMPTS a.now a.jitter).2
  | .unreachable typeName => (markFailed q d.id typeName MAX_ATTEMPTS a.now a.jitter).2
  | .raised text =>
    (markFailed q d.id (String.ofList (text.toList.take 200)) MAX_ATTEMPTS a.now a.jitter).2

def deliverOne (r : Round) (q : Queue) (d : Delivery) : Queue :=
  if isActive registry d then deliver q d (r.attempt d.id) else q

def runRound (q : Queue) (r : Round) : Queue :=
  (getDueDeliveries q r.now LIMIT).foldl (deliverOne registry r) q

def attemptedIn (q : Queue) (r : Round) : List Delivery :=
  (getDueDeliveries q r.now LIMIT).filter (isActive registry)

def attempted (q : Queue) : List Round → List Delivery
  | [] => []
  | r :: rounds => attemptedIn registry q r ++ attempted (runRound registry q r) rounds

end Rounds

def Delivery.handled (a : Attempt) (d : Delivery) : Delivery :=
  match a.outcome with
  | .success responseStatus => d.acknowledged responseStatus a.now
  | .httpStatusError responseStatus =>
    d.failed (d.attemptCount + 1) MAX_ATTEMPTS s!"HTTP {responseStatus}" a.now a.jitter
  | .unreachable typeName => d.failed (d.attemptCount + 1) MAX_ATTEMPTS typeName a.now a.jitter
  | .raised text =>
    d.failed (d.attemptCount + 1) MAX_ATTEMPTS (String.ofList (text.toList.take 200)) a.now a.jitter

theorem handled_id (a : Attempt) (d : Delivery) : (Delivery.handled a d).id = d.id := by
  rw [Delivery.handled]
  split
  · rfl
  · exact failed_id _ _ _ _ _ d
  · exact failed_id _ _ _ _ _ d
  · exact failed_id _ _ _ _ _ d

theorem rows_markFailed {q : Queue} {id : ℕ} (hid : ∃ d ∈ q.rows, d.id = id) (error : String)
    (maxAttempts : ℕ) (now : Instant) (jitter : ℚ) :
    (markFailed q id error maxAttempts now jitter).2.rows = q.rows.map fun row =>
      if row.id = id then row.failed (row.attemptCount + 1) maxAttempts error now jitter
      else row := by
  obtain ⟨d, hd, rfl⟩ := hid
  have hread : readAttempts q d.id = some d.attemptCount := by
    rw [readAttempts, IdTable.find?_eq_some.mpr ⟨hd, rfl⟩]
    rfl
  rw [markFailed, hread]
  refine List.map_congr_left fun row hrow => ?_
  by_cases hid : row.id = d.id
  · rw [if_pos hid, if_pos hid, IdTable.eq_of_id_eq hrow hd hid]
  · rw [if_neg hid, if_neg hid]

theorem rows_deliver {q : Queue} {d : Delivery} (hid : ∃ row ∈ q.rows, row.id = d.id)
    (a : Attempt) : (deliver q d a).rows =
      q.rows.map fun row => if row.id = d.id then Delivery.handled a row else row := by
  rw [deliver]
  cases houtcome : a.outcome with
  | success responseStatus =>
    refine List.map_congr_left fun row _ => ?_
    rw [Delivery.handled, houtcome]
  | httpStatusError responseStatus =>
    rw [rows_markFailed hid]
    refine List.map_congr_left fun row _ => ?_
    rw [Delivery.handled, houtcome]
  | unreachable typeName =>
    rw [rows_markFailed hid]
    refine List.map_congr_left fun row _ => ?_
    rw [Delivery.handled, houtcome]
  | raised text =>
    rw [rows_markFailed hid]
    refine List.map_congr_left fun row _ => ?_
    rw [Delivery.handled, houtcome]

section Rounds

variable {registry : List Subscriber} {q : Queue} {r : Round} {d : Delivery}

/-- The row after its round has come to the delivery `d`. -/
def Delivery.received (registry : List Subscriber) (r : Round) (row d : Delivery) : Delivery :=
  if row.id = d.id ∧ isActive registry d then Delivery.handled (r.attempt row.id) row else row

theorem received_id (row : Delivery) : (Delivery.received registry r row d).id = row.id := by
  rw [Delivery.received]
  split_ifs
  · exact handled_id _ row
  · rfl

theorem rows_deliverOne (hid : ∃ row ∈ q.rows, row.id = d.id) :
    (deliverOne registry r q d).rows = q.rows.map fun row =>
      Delivery.received registry r row d := by
  rw [deliverOne]
  split_ifs with hactive
  · rw [rows_deliver hid]
    refine List.map_congr_left fun row _ => ?_
    rw [Delivery.received]
    by_cases hrow : row.id = d.id
    · rw [if_pos hrow, if_pos ⟨hrow, hactive⟩, hrow]
    · rw [if_neg hrow, if_neg fun h => hrow h.1]
  · refine ((List.map_congr_left fun row _ => ?_).trans (List.map_id' _)).symm
    exact if_neg fun h => hactive h.2

theorem rows_foldl_received {order : List Delivery}
    (hrows : ∀ d ∈ order, ∃ row ∈ q.rows, row.id = d.id) :
    (order.foldl (deliverOne registry r) q).rows = q.rows.map fun row =>
      order.foldl (Delivery.received registry r) row := by
  induction order generalizing q with
  | nil => simp
  | cons d order ih =>
    have hfirst : (deliverOne registry r q d).rows = q.rows.map fun row =>
        Delivery.received registry r row d := rows_deliverOne (hrows d List.mem_cons_self)
    have hkeep : ∀ d' ∈ order, ∃ row ∈ (deliverOne registry r q d).rows, row.id = d'.id := by
      intro d' hd'
      obtain ⟨row, hrow, hid⟩ := hrows d' (List.mem_cons_of_mem d hd')
      rw [hfirst]
      exact ⟨_, List.mem_map_of_mem hrow, (received_id row).trans hid⟩
    rw [List.foldl_cons, ih hkeep, hfirst, List.map_map]
    rfl

theorem foldl_received {order : List Delivery} (hids : (order.map Delivery.id).Nodup)
    (row : Delivery) : order.foldl (Delivery.received registry r) row =
      if ∃ d ∈ order, row.id = d.id ∧ isActive registry d then
        Delivery.handled (r.attempt row.id) row
      else row := by
  induction order generalizing row with
  | nil => simp
  | cons d order ih =>
    rw [List.map_cons, List.nodup_cons] at hids
    rw [List.foldl_cons, ih hids.2, received_id]
    simp only [List.exists_mem_cons_iff]
    by_cases hid : row.id = d.id
    · have hlater : ¬ ∃ d' ∈ order, row.id = d'.id ∧ isActive registry d' := by
        rintro ⟨d', hd', heq, -⟩
        exact hids.1 (hid ▸ heq ▸ List.mem_map_of_mem hd')
      simp only [hlater, if_false, or_false, Delivery.received]
    · have hfirst : Delivery.received registry r row d = row := if_neg fun h => hid h.1
      simp only [hfirst, hid, false_and, false_or]

theorem rows_foldl_deliverOne {order : List Delivery} (hids : (order.map Delivery.id).Nodup)
    (hrows : ∀ d ∈ order, ∃ row ∈ q.rows, row.id = d.id) :
    (order.foldl (deliverOne registry r) q).rows = q.rows.map fun row =>
      if ∃ d ∈ order, row.id = d.id ∧ isActive registry d then
        Delivery.handled (r.attempt row.id) row
      else row := by
  rw [rows_foldl_received hrows]
  exact List.map_congr_left fun row _ => foldl_received hids row

theorem mem_rows_of_polled {now : Instant} {limit : ℕ} (h : d ∈ getDueDeliveries q now limit) :
    d ∈ q.rows ∧ Due now d := by
  have hmem := List.mem_filter.mp (List.mem_mergeSort.mp (List.mem_of_mem_take h))
  exact ⟨hmem.1, of_decide_eq_true hmem.2⟩

theorem nodup_polled (q : Queue) (now : Instant) (limit : ℕ) :
    ((getDueDeliveries q now limit).map Delivery.id).Nodup := by
  have hrows : (q.rows.map Delivery.id).Nodup := q.sorted.imp fun hlt => Nat.ne_of_lt hlt
  have hdue := hrows.sublist (List.filter_sublist (p := fun d => decide (Due now d)) |>.map _)
  have hsorted := ((List.mergeSort_perm (q.rows.filter fun d => decide (Due now d))
    fun a b => decide (a.nextAttemptAt ≤ b.nextAttemptAt)).map Delivery.id).nodup_iff.mpr hdue
  exact hsorted.sublist ((List.take_sublist _ _).map _)

def Handles (registry : List Subscriber) (q : Queue) (r : Round) (row : Delivery) : Prop :=
  row ∈ getDueDeliveries q r.now LIMIT ∧ isActive registry row

instance (row : Delivery) : Decidable (Handles registry q r row) :=
  inferInstanceAs (Decidable (_ ∧ _))

theorem rows_foldl_perm {order : List Delivery}
    (hperm : order.Perm (getDueDeliveries q r.now LIMIT)) :
    (order.foldl (deliverOne registry r) q).rows = q.rows.map fun row =>
      if Handles registry q r row then Delivery.handled (r.attempt row.id) row else row := by
  have hids : (order.map Delivery.id).Nodup :=
    (hperm.map Delivery.id).nodup_iff.mpr (nodup_polled q r.now LIMIT)
  have hrows : ∀ d ∈ order, ∃ row ∈ q.rows, row.id = d.id := fun d hd =>
    ⟨d, (mem_rows_of_polled (hperm.mem_iff.mp hd)).1, rfl⟩
  rw [rows_foldl_deliverOne hids hrows]
  refine List.map_congr_left fun row hrow => ?_
  have hiff : (∃ d ∈ order, row.id = d.id ∧ isActive registry d) ↔ Handles registry q r row := by
    constructor
    · rintro ⟨d, hd, hid, hactive⟩
      have hpolled := hperm.mem_iff.mp hd
      obtain rfl := IdTable.eq_of_id_eq hrow (mem_rows_of_polled hpolled).1 hid
      exact ⟨hpolled, hactive⟩
    · rintro ⟨hpolled, hactive⟩
      exact ⟨row, hperm.mem_iff.mpr hpolled, rfl, hactive⟩
  simp only [hiff]

theorem rows_runRound : (runRound registry q r).rows = q.rows.map fun row =>
    if Handles registry q r row then Delivery.handled (r.attempt row.id) row else row :=
  rows_foldl_perm (.refl _)

/-- Polled earlier: due earlier, or at the same time and of a smaller id. -/
abbrev Precedes (a d : Delivery) : Prop :=
  Earlier Delivery.nextAttemptAt (fun a b => a.id < b.id) a d

theorem precedes_asymm (a b : Delivery) (h : Precedes a b) : ¬ Precedes b a :=
  Earlier.asymm (fun _ _ hlt hlt' => lt_asymm hlt hlt') h

def ahead (q : Queue) (d : Delivery) : List Delivery :=
  q.rows.filter fun a => a.status = .pending ∧ Precedes a d

def live (registry : List Subscriber) (q : Queue) (d : Delivery) : List Delivery :=
  (ahead q d).filter fun a => isActive registry a

/-- Those of subscribers that are removed, inactive or without a readable secret. -/
def stuck (registry : List Subscriber) (q : Queue) (d : Delivery) : List Delivery :=
  (ahead q d).filter fun a => !isActive registry a

theorem mem_ahead {a : Delivery} :
    a ∈ ahead q d ↔ a ∈ q.rows ∧ a.status = .pending ∧ Precedes a d := by
  rw [ahead, List.mem_filter, decide_eq_true_iff]

theorem due_of_precedes {a : Delivery} {now : Instant} (hdue : Due now d)
    (hpending : a.status = .pending) (hbefore : Precedes a d) : Due now a := by
  refine ⟨hpending, ?_⟩
  rcases hbefore with hlt | ⟨heq, -⟩
  · exact hlt.le.trans hdue.2
  · exact heq.le.trans hdue.2

theorem sorted_due (q : Queue) (now : Instant) :
    (sortBy Delivery.nextAttemptAt (q.rows.filter fun a => decide (Due now a))).Pairwise
      Precedes := by
  refine sortBy_pairwise (List.Pairwise.filter _ ?_)
  exact List.pairwise_map.mp q.sorted

theorem length_before {now : Instant} (hdue : Due now d) :
    ((sortBy Delivery.nextAttemptAt (q.rows.filter fun a => decide (Due now a))).filter fun a =>
      Precedes a d).length = (ahead q d).length := by
  rw [((sortBy_perm _).filter _).length_eq, List.filter_filter, ahead]
  refine congrArg List.length (List.filter_congr fun a _ => ?_)
  rw [Bool.and_eq_decide, decide_eq_decide, decide_eq_true_iff, decide_eq_true_iff]
  exact ⟨fun h => ⟨h.2.1, h.1⟩, fun h => ⟨h.2, due_of_precedes hdue h.1 h.2⟩⟩

theorem polled_iff {now : Instant} {limit : ℕ} (hd : d ∈ q.rows) (hdue : Due now d) :
    d ∈ getDueDeliveries q now limit ↔ (ahead q d).length < limit := by
  have hmem : d ∈ sortBy Delivery.nextAttemptAt (q.rows.filter fun a => decide (Due now a)) :=
    mem_sortBy.mpr (List.mem_filter.mpr ⟨hd, decide_eq_true hdue⟩)
  rw [← length_before hdue]
  exact mem_take_iff precedes_asymm (sorted_due q now) hmem

theorem polled_ahead {now : Instant} {limit : ℕ} (hd : d ∈ q.rows) (hdue : Due now d)
    (hnot : d ∉ getDueDeliveries q now limit) :
    (getDueDeliveries q now limit).length = limit ∧
      ∀ a ∈ getDueDeliveries q now limit, a ∈ ahead q d := by
  have hmem : d ∈ sortBy Delivery.nextAttemptAt (q.rows.filter fun a => decide (Due now a)) :=
    mem_sortBy.mpr (List.mem_filter.mpr ⟨hd, decide_eq_true hdue⟩)
  obtain ⟨hlength, hbefore⟩ := take_before precedes_asymm (sorted_due q now) hmem hnot
  refine ⟨hlength, fun a ha => ?_⟩
  obtain ⟨harow, hadue⟩ := mem_rows_of_polled ha
  exact mem_ahead.mpr ⟨harow, hadue.1, hbefore a ha⟩

/-- No attempt ends before its poll, and jitter is drawn from the unit interval. -/
def Round.Timely (r : Round) : Prop :=
  ∀ id, r.now ≤ (r.attempt id).now ∧ 0 ≤ (r.attempt id).jitter ∧ (r.attempt id).jitter < 1

theorem four_le_computeBackoff (attempt : ℕ) {jitter : ℚ} (hjitter : jitter < 1) :
    4 ≤ computeBackoff attempt jitter := by
  have hpow : (1 : ℚ) ≤ 2 ^ attempt := one_le_pow₀ (by decide)
  have hdelay : 5 ≤ min (2 ^ attempt * BASE_DELAY) MAX_DELAY := by
    refine le_min ?_ (by decide)
    rw [BASE_DELAY]
    linarith
  have hratio : 4 / 5 ≤ 1 - JITTER_RATIO * jitter := by
    unfold JITTER_RATIO
    linarith
  rw [computeBackoff]
  nlinarith

theorem timedelta_pos {seconds : ℚ} (h : 4 ≤ seconds) : 0 < timedelta seconds := by
  have hlow : 0 < ⌊seconds * 1000000⌋ := by
    rw [Int.floor_pos]
    linarith
  rw [timedelta]
  split_ifs
  · exact hlow
  · exact hlow.trans (lt_add_one _)

theorem not_ahead_failed {now now' : Instant} (hdue : Due now d) (hlater : now ≤ now')
    {jitter : ℚ} (hjitter : jitter < 1) (attempt : ℕ) (error : String) (row : Delivery) :
    ¬ ((row.failed attempt MAX_ATTEMPTS error now' jitter).status = .pending ∧
      Precedes (row.failed attempt MAX_ATTEMPTS error now' jitter) d) := by
  rintro ⟨hpending, hbefore⟩
  by_cases hdead : MAX_ATTEMPTS ≤ attempt
  · rw [Delivery.failed, if_pos hdead] at hpending
    cases hpending
  · have hnext : d.nextAttemptAt <
        (row.failed attempt MAX_ATTEMPTS error now' jitter).nextAttemptAt := by
      rw [Delivery.failed, if_neg hdead]
      have hpos := timedelta_pos (four_le_computeBackoff attempt hjitter)
      exact (hdue.2.trans hlater).trans_lt (lt_add_of_pos_right now' hpos)
    rcases hbefore with hlt | ⟨heq, -⟩
    · exact lt_asymm hnext hlt
    · exact hnext.ne heq.symm

theorem not_ahead_handled {a : Attempt} {now : Instant} (hdue : Due now d) (hlater : now ≤ a.now)
    (hjitter : a.jitter < 1) (row : Delivery) :
    ¬ ((Delivery.handled a row).status = .pending ∧ Precedes (Delivery.handled a row) d) := by
  rw [Delivery.handled]
  split
  · exact fun h => by cases h.1
  · exact not_ahead_failed hdue hlater hjitter _ _ row
  · exact not_ahead_failed hdue hlater hjitter _ _ row
  · exact not_ahead_failed hdue hlater hjitter _ _ row

/-- The rows that the round attempts are gone, the others are as they were. -/
theorem ahead_runRound (hdue : Due r.now d) (htimely : r.Timely) :
    ahead (runRound registry q r) d =
      (ahead q d).filter fun row => ¬ Handles registry q r row := by
  rw [ahead, rows_runRound, List.filter_map, ahead, List.filter_filter]
  have hiff : ∀ row : Delivery,
      (if Handles registry q r row then Delivery.handled (r.attempt row.id) row
        else row).status = .pending ∧
      Precedes (if Handles registry q r row then Delivery.handled (r.attempt row.id) row
        else row) d ↔
      ¬ Handles registry q r row ∧ row.status = .pending ∧ Precedes row d := by
    intro row
    split_ifs with hhandles
    · obtain ⟨hnow, -, hjitter⟩ := htimely row.id
      exact iff_of_false (not_ahead_handled hdue hnow hjitter row) fun h => h.1 hhandles
    · exact (and_iff_right hhandles).symm
  have hfilter : (q.rows.filter ((fun a => decide (a.status = .pending ∧ Precedes a d)) ∘
      fun row => if Handles registry q r row then Delivery.handled (r.attempt row.id) row
        else row)) =
      q.rows.filter fun row => decide (¬ Handles registry q r row) &&
        decide (row.status = .pending ∧ Precedes row d) := by
    refine List.filter_congr fun row _ => ?_
    rw [Function.comp_apply, Bool.and_eq_decide, decide_eq_decide, decide_eq_true_iff,
      decide_eq_true_iff]
    exact hiff row
  rw [hfilter]
  refine (List.map_congr_left fun row hrow => ?_).trans (List.map_id' _)
  have hnot := (Bool.and_eq_true_iff.mp (List.mem_filter.mp hrow).2).1
  exact if_neg (of_decide_eq_true hnot)

theorem stuck_runRound (hdue : Due r.now d) (htimely : r.Timely) :
    stuck registry (runRound registry q r) d = stuck registry q d := by
  rw [stuck, ahead_runRound hdue htimely, List.filter_filter, stuck]
  refine List.filter_congr fun row _ => ?_
  cases hactive : isActive registry row with
  | true => rfl
  | false => simp [Handles, hactive]

theorem mem_runRound (hd : d ∈ q.rows) (hnot : d ∉ getDueDeliveries q r.now LIMIT) :
    d ∈ (runRound registry q r).rows := by
  rw [rows_runRound]
  exact List.mem_map.mpr ⟨d, hd, if_neg fun h => hnot h.1⟩

theorem length_ahead (registry : List Subscriber) (q : Queue) (d : Delivery) :
    (ahead q d).length = (live registry q d).length + (stuck registry q d).length := by
  rw [live, stuck]
  exact List.length_eq_length_filter_add _

theorem live_runRound (hd : d ∈ q.rows) (hdue : Due r.now d) (htimely : r.Timely)
    (hnot : d ∉ getDueDeliveries q r.now LIMIT) (hstuck : (stuck registry q d).length < LIMIT) :
    (live registry (runRound registry q r) d).length < (live registry q d).length := by
  obtain ⟨hlength, hahead⟩ := polled_ahead hd hdue hnot
  have hpolled : ∃ a ∈ getDueDeliveries q r.now LIMIT, isActive registry a = true := by
    by_contra hnone
    push Not at hnone
    have hsub : getDueDeliveries q r.now LIMIT ⊆ stuck registry q d := fun a ha =>
      List.mem_filter.mpr ⟨hahead a ha, by simpa using hnone a ha⟩
    have hle := ((nodup_polled q r.now LIMIT).of_map _).subperm hsub |>.length_le
    omega
  obtain ⟨a, hpolled, hactive⟩ := hpolled
  have hlive : live registry (runRound registry q r) d =
      (live registry q d).filter fun row => ¬ Handles registry q r row := by
    rw [live, ahead_runRound hdue htimely, live, List.filter_comm]
  rw [hlive]
  refine List.length_filter_lt_length_iff_exists.mpr ⟨a, ?_, ?_⟩
  · exact List.mem_filter.mpr ⟨hahead a hpolled, hactive⟩
  · rw [decide_eq_true_iff, not_not]
    exact ⟨hpolled, hactive⟩

def Timely (now : Instant) : List Round → Prop
  | [] => True
  | r :: rounds => now ≤ r.now ∧ r.Timely ∧ Timely r.now rounds

theorem Due.mono {now now' : Instant} (h : Due now d) (hle : now ≤ now') : Due now' d :=
  ⟨h.1, h.2.trans hle⟩

theorem attempted_of_stuck {rounds : List Round} {now : Instant} (hd : d ∈ q.rows)
    (hdue : Due now d) (hactive : isActive registry d = true)
    (hstuck : (stuck registry q d).length < LIMIT)
    (hlive : (live registry q d).length < rounds.length) (htimely : Timely now rounds) :
    d ∈ attempted registry q rounds := by
  induction rounds generalizing q now with
  | nil => cases hlive
  | cons r rounds ih =>
    obtain ⟨hnow, hround, hrest⟩ := htimely
    have hlater := Due.mono hdue hnow
    rw [attempted, List.mem_append]
    by_cases hpolled : d ∈ getDueDeliveries q r.now LIMIT
    · exact .inl (List.mem_filter.mpr ⟨hpolled, hactive⟩)
    · have hfewer := live_runRound hd hlater hround hpolled hstuck
      refine .inr (ih (mem_runRound hd hpolled) hlater ?_ ?_ hrest)
      · rw [stuck_runRound hlater hround]
        exact hstuck
      · rw [List.length_cons] at hlive
        omega

theorem not_attempted_of_stuck {rounds : List Round} {now : Instant} (hd : d ∈ q.rows)
    (hdue : Due now d) (hstuck : LIMIT ≤ (stuck registry q d).length)
    (htimely : Timely now rounds) : d ∉ attempted registry q rounds := by
  induction rounds generalizing q now with
  | nil => exact List.not_mem_nil
  | cons r rounds ih =>
    obtain ⟨hnow, hround, hrest⟩ := htimely
    have hlater := Due.mono hdue hnow
    have hnot : d ∉ getDueDeliveries q r.now LIMIT := by
      rw [polled_iff hd hlater, length_ahead registry]
      omega
    rw [attempted, List.mem_append, not_or]
    refine ⟨fun h => hnot (List.mem_filter.mp h).1, ih (mem_runRound hd hnot) hlater ?_ hrest⟩
    rw [stuck_runRound hlater hround]
    exact hstuck

def promptRound (now : Instant) : Round := ⟨now, fun _ => ⟨.success 200, now, 0⟩⟩

theorem timely_prompt (now : Instant) (n : ℕ) :
    Timely now (List.replicate n (promptRound now)) := by
  induction n with
  | zero => trivial
  | succ n ih => exact ⟨le_rfl, fun _ => ⟨le_rfl, le_rfl, one_pos⟩, ih⟩

def dueCount (q : Queue) (now : Instant) : ℕ := q.rows.countP fun d => Due now d

theorem live_lt_dueCount {now : Instant} (hd : d ∈ q.rows) (hdue : Due now d) :
    (live registry q d).length < dueCount q now := by
  have hnot : d ∉ live registry q d := fun h =>
    precedes_asymm d d (mem_ahead.mp (List.mem_filter.mp h).1).2.2
      (mem_ahead.mp (List.mem_filter.mp h).1).2.2
  have hnodup : (d :: live registry q d).Nodup :=
    List.nodup_cons.mpr ⟨hnot, (q.rows_nodup.filter _).filter _⟩
  have hsub : d :: live registry q d ⊆ q.rows.filter fun a => Due now a := by
    intro a ha
    rcases List.mem_cons.mp ha with rfl | ha
    · exact List.mem_filter.mpr ⟨hd, decide_eq_true hdue⟩
    · obtain ⟨hrow, hpending, hbefore⟩ := mem_ahead.mp (List.mem_filter.mp ha).1
      exact List.mem_filter.mpr ⟨hrow, decide_eq_true (due_of_precedes hdue hpending hbefore)⟩
  rw [dueCount, List.countP_eq_length_filter]
  exact (hnodup.subperm hsub).length_le

end Rounds

section Results

variable (registry : List Subscriber)

theorem isActive_eq {registry : List Subscriber} {d : Delivery} {sub : Subscriber}
    (hsub : findRow registry d.subscriberId = some sub) (hactive : sub.active = true) :
    isActive registry d = sub.secretReadable := by
  rw [isActive, getSubscriber, hsub]
  cases hreadable : sub.secretReadable with
  | true => simpa [hreadable] using hactive
  | false => simp [hreadable]

theorem isActive_of_attempted {registry : List Subscriber} {q : Queue} {d : Delivery}
    {rounds : List Round} (h : d ∈ attempted registry q rounds) : isActive registry d = true := by
  induction rounds generalizing q with
  | nil => cases h
  | cons r rounds ih =>
    rw [attempted, List.mem_append] at h
    rcases h with h | h
    · exact (List.mem_filter.mp h).2
    · exact ih h

end Results

section Examples

/-- So many deliveries for a subscriber that was never registered, and one for a registered one. -/
def queueWith (n : ℕ) : Queue :=
  enqueue ((List.replicate n "bridge_loader").foldl
    (fun q subscriberId => enqueue q subscriberId (.object .nil) 0) .empty) "sub" (.object .nil) 0

def registered : List Subscriber := [⟨"sub", true, true⟩]

theorem findRow_registered : findRow registered "sub" = some ⟨"sub", true, true⟩ := by decide

def lastDelivery (n : ℕ) : Delivery := newDelivery "sub" (.object .nil) 0 (n + 1)

end Examples

end WebhookPolling
