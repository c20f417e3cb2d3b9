import LedgerLens.LabelledRuns
import Mathlib.Algebra.Order.Ring.Rat
import Mathlib.Logic.Function.Basic

/-!
# The circuit breaker

`utils/circuit_breaker.py`: a breaker shared by any number of callers, whose calls overlap.
-/
namespace CircuitBreaker

open LabelledRuns

inductive CircuitState where
  | closed
  | opened
  | halfOpen
  deriving DecidableEq, Repr

structure Settings where
  failureThreshold : ℤ
  recoveryTimeout : ℚ

structure Breaker where
  state : CircuitState
  failureCount : ℤ
  openedAt : Option ℚ
  deriving DecidableEq

def Breaker.initial : Breaker := ⟨.closed, 0, none⟩

section Steps

variable (cfg : Settings)

def Breaker.maybeTransitionToHalfOpen (b : Breaker) (now : ℚ) : Breaker :=
  if b.state = .opened ∧ ∃ openedAt ∈ b.openedAt, cfg.recoveryTimeout ≤ now - openedAt then
    { b with state := .halfOpen }
  else b

/-- The breaker afterwards, and whether the call is let through. -/
def Breaker.allowRequest (b : Breaker) (now : ℚ) : Breaker × Bool :=
  let b := b.maybeTransitionToHalfOpen cfg now
  (b, decide (b.state ≠ .opened))

def Breaker.openAt (b : Breaker) (now : ℚ) : Breaker :=
  { b with state := .opened, openedAt := some now }

def Breaker.close (b : Breaker) : Breaker :=
  { b with state := .closed, openedAt := none, failureCount := 0 }

def Breaker.recordSuccess (b : Breaker) : Breaker :=
  let b := { b with failureCount := 0 }
  if b.state ≠ .closed then b.close else b

def Breaker.recordFailure (b : Breaker) (now : ℚ) : Breaker :=
  let b := { b with failureCount := b.failureCount + 1 }
  if b.state = .halfOpen then b.openAt now
  else if cfg.failureThreshold ≤ b.failureCount then b.openAt now
  else b

def Breaker.Opens (b : Breaker) : Prop :=
  b.state = .halfOpen ∨ cfg.failureThreshold ≤ b.failureCount + 1

instance (b : Breaker) : Decidable (b.Opens cfg) := inferInstanceAs (Decidable (_ ∨ _))

end Steps

inductive Action (Caller : Type) where
  | allowRequest (c : Caller)
  | recordSuccess (c : Caller)
  | recordFailure (c : Caller)
  | inspect
  deriving DecidableEq

structure Event (Caller : Type) where
  action : Action Caller
  time : ℚ
  deriving DecidableEq

/-- The breaker with its history: the times at which the circuit opened, the latest first, and for
every call that was admitted and has no outcome yet the number of openings before it. -/
structure Service (Caller : Type) where
  breaker : Breaker
  now : ℚ
  openings : List ℚ
  outstanding : Caller → Option ℕ

def Service.initial (Caller : Type) (now : ℚ) : Service Caller :=
  ⟨.initial, now, [], fun _ => none⟩

section Callers

variable (cfg : Settings) {Caller : Type} [DecidableEq Caller]

def next (s : Service Caller) (e : Event Caller) : Option (Service Caller) :=
  if e.time < s.now then none
  else match e.action with
    | .allowRequest c =>
      if s.outstanding c ≠ none then none
      else
        let (breaker, allowed) := s.breaker.allowRequest cfg e.time
        some { s with
          breaker := breaker
          now := e.time
          outstanding :=
            if allowed then Function.update s.outstanding c (some s.openings.length)
            else s.outstanding }
    | .recordSuccess c => some { s with
        breaker := s.breaker.recordSuccess
        now := e.time
        outstanding := Function.update s.outstanding c none }
    | .recordFailure c => some { s with
        breaker := s.breaker.recordFailure cfg e.time
        now := e.time
        openings := if s.breaker.Opens cfg then e.time :: s.openings else s.openings
        outstanding := Function.update s.outstanding c none }
    | .inspect => some { s with
        breaker := s.breaker.maybeTransitionToHalfOpen cfg e.time
        now := e.time }

def Steps (s : Service Caller) (e : Event Caller) (s' : Service Caller) : Prop :=
  next cfg s e = some s'

def Elapsed (s : Service Caller) (time : ℚ) : Prop :=
  ∀ opening ∈ s.openings.head?, cfg.recoveryTimeout ≤ time - opening

/-- A call admitted since the circuit last opened has no outcome yet. -/
def Probing (s : Service Caller) : Prop := ∃ c, s.outstanding c = some s.openings.length

/-- What the breaker promises of a step that finds the circuit not closed: a call is let through
exactly when the timeout has elapsed and no probe is under way, and only the success of a call
admitted since the opening closes the circuit. -/
def Promise (s : Service Caller) (e : Event Caller) (s' : Service Caller) : Prop :=
  s.breaker.state ≠ .closed →
    match e.action with
    | .allowRequest c => (s'.outstanding c ≠ none ↔ Elapsed cfg s e.time ∧ ¬ Probing s) ∧
        s'.breaker.state ≠ .closed
    | .recordSuccess c => s'.breaker.state = .closed → s.outstanding c = some s.openings.length
    | _ => s'.breaker.state ≠ .closed

/-- A request after the timeout finds no probe under way, and a success recorded while the circuit
is not closed is that of a probe. -/
def Orderly (s : Service Caller) (e : Event Caller) : Prop :=
  s.breaker.state ≠ .closed →
    match e.action with
    | .allowRequest _ => Elapsed cfg s e.time → ¬ Probing s
    | .recordSuccess c => s.outstanding c = some s.openings.length
    | _ => True

end Callers

section Results

variable {cfg : Settings} {Caller : Type}

/-- While the circuit is not closed the breaker knows when it last opened, and a half-open one has
waited for the timeout. -/
structure Tracked (cfg : Settings) (s : Service Caller) : Prop where
  opened : s.breaker.state ≠ .closed →
    ∃ opening, s.openings.head? = some opening ∧ s.breaker.openedAt = some opening
  waited : s.breaker.state = .halfOpen → Elapsed cfg s s.now

theorem tracked_initial (now : ℚ) : Tracked cfg (.initial Caller now) where
  opened h := absurd rfl h
  waited h := by cases h

theorem Elapsed.later {s : Service Caller} {time time' : ℚ} (h : Elapsed cfg s time)
    (hle : time ≤ time') : Elapsed cfg s time' :=
  fun opening hopening => (h opening hopening).trans (sub_le_sub_right hle opening)

/-- The timeout transition takes an open circuit to half-open once the timeout has elapsed. -/
theorem Tracked.transition {s : Service Caller} {time : ℚ} (h : Tracked cfg s)
    (hlater : s.now ≤ time) (hstate : s.breaker.state ≠ .closed) :
    let b := s.breaker.maybeTransitionToHalfOpen cfg time
    b.openedAt = s.breaker.openedAt ∧ b.state ≠ .closed ∧
      (b.state ≠ .opened ↔ Elapsed cfg s time) := by
  obtain ⟨opening, hhead, hopenedAt⟩ := h.opened hstate
  have helapsed : Elapsed cfg s time ↔ cfg.recoveryTimeout ≤ time - opening := by
    simp [Elapsed, hhead]
  by_cases hopen : s.breaker.state = .opened
  · by_cases hwaited : cfg.recoveryTimeout ≤ time - opening
    · have heq : s.breaker.maybeTransitionToHalfOpen cfg time =
          { s.breaker with state := .halfOpen } := if_pos ⟨hopen, opening, hopenedAt, hwaited⟩
      rw [heq, helapsed]
      simp [hwaited]
    · have heq : s.breaker.maybeTransitionToHalfOpen cfg time = s.breaker := by
        apply if_neg
        rintro ⟨-, opening', hopenedAt', hwaited'⟩
        obtain rfl := Option.some.inj (hopenedAt.symm.trans hopenedAt')
        exact hwaited hwaited'
      rw [heq, helapsed]
      simp [hwaited, hopen]
  · have heq : s.breaker.maybeTransitionToHalfOpen cfg time = s.breaker :=
      if_neg fun hboth => hopen hboth.1
    have hhalf : s.breaker.state = .halfOpen := by
      cases hcase : s.breaker.state with
      | closed => exact absurd hcase hstate
      | opened => exact absurd hcase hopen
      | halfOpen => rfl
    rw [heq]
    exact ⟨rfl, hstate, fun _ => (h.waited hhalf).later hlater, fun _ => hopen⟩

theorem recordFailure_eq (b : Breaker) (now : ℚ) : b.recordFailure cfg now =
    let b' := { b with failureCount := b.failureCount + 1 }
    if b.Opens cfg then b'.openAt now else b' := by
  by_cases hhalf : b.state = .halfOpen
  · simp [Breaker.recordFailure, Breaker.Opens, hhalf]
  · simp [Breaker.recordFailure, Breaker.Opens, hhalf]

theorem transition_closed {b : Breaker} {time : ℚ} (h : b.state = .closed) :
    b.maybeTransitionToHalfOpen cfg time = b := by
  apply if_neg
  rintro ⟨hopen, -⟩
  rw [h] at hopen
  cases hopen

theorem recordSuccess_state (b : Breaker) : b.recordSuccess.state = .closed := by
  by_cases hclosed : b.state = .closed
  · simp [Breaker.recordSuccess, hclosed]
  · simp [Breaker.recordSuccess, hclosed, Breaker.close]

theorem Tracked.move {s : Service Caller} {time : ℚ} (h : Tracked cfg s) (hlater : s.now ≤ time)
    (outstanding : Caller → Option ℕ) : Tracked cfg
      ⟨s.breaker.maybeTransitionToHalfOpen cfg time, time, s.openings, outstanding⟩ := by
  by_cases hclosed : s.breaker.state = .closed
  · rw [transition_closed hclosed]
    constructor
    · exact fun hstate => absurd hclosed hstate
    · intro hhalf
      rw [hclosed] at hhalf
      cases hhalf
  · obtain ⟨hopenedAt, hstate, helapsed⟩ := h.transition hlater hclosed
    constructor
    · intro _
      rw [hopenedAt]
      exact h.opened hclosed
    · intro hhalf
      apply helapsed.mp
      rw [hhalf]
      simp

variable [DecidableEq Caller]

theorem steps_later {s s' : Service Caller} {e : Event Caller} (h : Steps cfg s e s') :
    s.now ≤ e.time := by
  by_contra hearlier
  rw [Steps, next, if_pos (not_le.mp hearlier)] at h
  cases h

theorem Tracked.step {s s' : Service Caller} {e : Event Caller} (h : Tracked cfg s)
    (hstep : Steps cfg s e s') : Tracked cfg s' := by
  have hlater := steps_later hstep
  rw [Steps, next, if_neg (not_lt.mpr hlater)] at hstep
  obtain ⟨action, time⟩ := e
  cases action with
  | allowRequest c =>
    obtain ⟨-, heq⟩ := Option.ite_none_left_eq_some.mp hstep
    obtain rfl := Option.some.inj heq
    exact h.move hlater _
  | inspect =>
    obtain rfl := Option.some.inj hstep
    exact h.move hlater _
  | recordSuccess c =>
    obtain rfl := Option.some.inj hstep
    constructor
    · exact fun hstate => absurd (recordSuccess_state _) hstate
    · intro hhalf
      rw [recordSuccess_state] at hhalf
      cases hhalf
  | recordFailure c =>
    obtain rfl := Option.some.inj hstep
    simp only [recordFailure_eq]
    by_cases hopens : s.breaker.Opens cfg
    · simp only [if_pos hopens]
      constructor
      · exact fun _ => ⟨time, rfl, rfl⟩
      · intro hhalf
        cases hhalf
    · simp only [if_neg hopens]
      constructor
      · exact h.opened
      · exact fun hhalf => absurd (.inl hhalf) hopens

theorem Tracked.promise_iff {s s' : Service Caller} {e : Event Caller} (h : Tracked cfg s)
    (hstep : Steps cfg s e s') : Promise cfg s e s' ↔ Orderly cfg s e := by
  have hlater := steps_later hstep
  apply imp_congr_right
  intro hstate
  rw [Steps, next, if_neg (not_lt.mpr hlater)] at hstep
  obtain ⟨action, time⟩ := e
  cases action with
  | allowRequest c =>
    obtain ⟨hidle, heq⟩ := Option.ite_none_left_eq_some.mp hstep
    obtain rfl := Option.some.inj heq
    obtain ⟨-, hclosed, hlet⟩ := h.transition hlater hstate
    have hadmitted : (if (s.breaker.allowRequest cfg time).2 = true then
        Function.update s.outstanding c (some s.openings.length) else s.outstanding) c ≠ none ↔
        Elapsed cfg s time := by
      rw [← hlet]
      by_cases hopened : (s.breaker.maybeTransitionToHalfOpen cfg time).state = .opened
      · simpa [Breaker.allowRequest, hopened] using not_not.mp hidle
      · simp [Breaker.allowRequest, hopened]
    constructor
    · rintro ⟨hpromise, -⟩ helapsed
      exact (hpromise.mp (hadmitted.mpr helapsed)).2
    · intro hfree
      refine ⟨⟨fun hlet => ?_, fun hboth => hadmitted.mpr hboth.1⟩, hclosed⟩
      have helapsed := hadmitted.mp hlet
      exact ⟨helapsed, hfree helapsed⟩
  | inspect =>
    obtain rfl := Option.some.inj hstep
    exact iff_of_true (h.transition hlater hstate).2.1 trivial
  | recordSuccess c =>
    obtain rfl := Option.some.inj hstep
    exact ⟨fun hpromise => hpromise (recordSuccess_state _), fun horderly _ => horderly⟩
  | recordFailure c =>
    obtain rfl := Option.some.inj hstep
    refine iff_of_true ?_ trivial
    simp only [recordFailure_eq]
    split_ifs
    · simp [Breaker.openAt]
    · exact hstate

theorem tracked_run {now : ℚ} {es : List (Event Caller)} {s : Service Caller}
    (h : Run (Steps cfg) (.initial Caller now) es s) : Tracked cfg s :=
  h.invariant (fun _ _ _ hold hstep => hold.step hstep) (tracked_initial now)

/-- All the steps of a run keep the promise of the breaker exactly when all of them are orderly. -/
theorem promise_iff_orderly (cfg : Settings) (now : ℚ) (es : List (Event Caller)) :
    (∀ before e after u v, es = before ++ e :: after →
      Run (Steps cfg) (.initial Caller now) before u → Steps cfg u e v → Promise cfg u e v) ↔
    ∀ before e after u v, es = before ++ e :: after →
      Run (Steps cfg) (.initial Caller now) before u → Steps cfg u e v → Orderly cfg u e := by
  constructor
  · intro hpromise before e after u v hes hu hstep
    exact ((tracked_run hu).promise_iff hstep).mp (hpromise before e after u v hes hu hstep)
  · intro horderly before e after u v hes hu hstep
    exact ((tracked_run hu).promise_iff hstep).mpr (horderly before e after u v hes hu hstep)

def Sequential (s : Service Caller) (e : Event Caller) : Prop :=
  match e.action with
  | .allowRequest _ => ∀ c, s.outstanding c = none
  | .recordSuccess c | .recordFailure c => s.outstanding c ≠ none
  | .inspect => True

structure OneCall (s : Service Caller) : Prop where
  current : ∀ c k, s.outstanding c = some k → k = s.openings.length
  single : ∀ c c', s.outstanding c ≠ none → s.outstanding c' ≠ none → c = c'

omit [DecidableEq Caller] in
theorem OneCall.idle {s : Service Caller} (h : ∀ c, s.outstanding c = none) : OneCall s where
  current c k hk := by
    rw [h c] at hk
    cases hk
  single c _ hc := absurd (h c) hc

theorem OneCall.answered {s : Service Caller} {c : Caller} (h : OneCall s)
    (hc : s.outstanding c ≠ none) (c' : Caller) :
    Function.update s.outstanding c none c' = none := by
  by_cases heq : c' = c
  · rw [heq, Function.update_self]
  · rw [Function.update_of_ne heq]
    by_contra hc'
    exact heq (h.single c' c hc' hc)

theorem OneCall.request {s : Service Caller} {breaker : Breaker} {time : ℚ} {c : Caller}
    {allowed : Bool} (h : ∀ c, s.outstanding c = none) :
    OneCall ⟨breaker, time, s.openings, if allowed then
      Function.update s.outstanding c (some s.openings.length) else s.outstanding⟩ := by
  cases allowed with
  | false => exact .idle h
  | true =>
    have honly (c' : Caller)
        (hc' : Function.update s.outstanding c (some s.openings.length) c' ≠ none) : c' = c := by
      by_contra hne
      rw [Function.update_of_ne hne] at hc'
      exact hc' (h c')
    constructor
    · intro c' k hk
      obtain rfl := honly c' (by simp only [if_true] at hk; rw [hk]; exact Option.some_ne_none k)
      simp only [if_true, Function.update_self] at hk
      exact (Option.some.inj hk).symm
    · intro c' c'' hc' hc''
      rw [honly c' hc', honly c'' hc'']

theorem OneCall.step {s s' : Service Caller} {e : Event Caller} (h : OneCall s)
    (hstep : Steps cfg s e s') (hseq : Sequential s e) : OneCall s' := by
  have hlater := steps_later hstep
  rw [Steps, next, if_neg (not_lt.mpr hlater)] at hstep
  obtain ⟨action, time⟩ := e
  cases action with
  | allowRequest c =>
    obtain ⟨-, heq⟩ := Option.ite_none_left_eq_some.mp hstep
    obtain rfl := Option.some.inj heq
    have hnone : ∀ c', s.outstanding c' = none := hseq
    exact .request hnone
  | inspect =>
    obtain rfl := Option.some.inj hstep
    exact ⟨h.current, h.single⟩
  | recordSuccess c =>
    obtain rfl := Option.some.inj hstep
    exact .idle (h.answered hseq)
  | recordFailure c =>
    obtain rfl := Option.some.inj hstep
    exact .idle (h.answered hseq)

omit [DecidableEq Caller] in
theorem OneCall.orderly {s : Service Caller} {e : Event Caller} (h : OneCall s)
    (hseq : Sequential s e) : Orderly cfg s e := by
  intro _
  obtain ⟨action, time⟩ := e
  cases action with
  | allowRequest c =>
    rintro - ⟨c', hprobe⟩
    rw [hseq c'] at hprobe
    cases hprobe
  | inspect => trivial
  | recordFailure c => trivial
  | recordSuccess c =>
    obtain ⟨k, hk⟩ := Option.ne_none_iff_exists'.mp hseq
    rw [← h.current c k hk]
    exact hk

theorem promise_of_sequential {now : ℚ} {es : List (Event Caller)} {s t : Service Caller}
    {e : Event Caller}
    (hrun : Run (fun u e v => Steps cfg u e v ∧ Sequential u e) (.initial Caller now) es s)
    (hstep : Steps cfg s e t) (hseq : Sequential s e) : Promise cfg s e t := by
  have honecall : OneCall s :=
    hrun.invariant (fun _ _ _ hold hstep => hold.step hstep.1 hstep.2) (.idle fun _ => rfl)
  have htracked := tracked_run (hrun.mono fun _ _ _ hstep => hstep.1)
  exact (htracked.promise_iff hstep).mpr (honecall.orderly hseq)

end Results

section Examples

def minute : Settings := ⟨1, 60⟩

/-- A call fails, and after the timeout a second one is let through as the probe. -/
def probed : List (Event ℕ) :=
  [⟨.allowRequest 0, 0⟩, ⟨.recordFailure 0, 1⟩, ⟨.allowRequest 1, 61⟩]

/-- A third call is let through beside the probe. -/
theorem two_probes : ¬ ∀ (cfg : Settings) (now : ℚ) (es : List (Event ℕ))
    (u v : Service ℕ) (e : Event ℕ), Run (Steps cfg) (.initial ℕ now) es u →
      Steps cfg u e v → Promise cfg u e v := by
  intro h
  have hrun : ∃ u ∈ probed.foldlM (fun s e => if True then next minute s e else none)
      (.initial ℕ 0), ∃ v ∈ next minute u ⟨.allowRequest 2, 62⟩,
        u.breaker.state ≠ .closed ∧ u.outstanding 1 = some u.openings.length ∧
          v.outstanding 2 ≠ none := by
    decide +kernel
  obtain ⟨u, hu, v, hv, hstate, hprobe, hlet⟩ := hrun
  have hsteps := (run_iff_foldlM.mpr hu).mono fun _ _ _ hstep => hstep.1
  obtain ⟨hpromise, -⟩ := h minute 0 probed u v ⟨.allowRequest 2, 62⟩ hsteps hv hstate
  exact (hpromise.mp hlet).2 ⟨1, hprobe⟩

end Examples

end CircuitBreaker
