import LedgerLens.LabelledRuns
import LedgerLens.TokenBuckets

/-!
# The limiter that Horizon tunes

`HorizonAdaptiveRateLimiter` of `ingestion/rate_limiter.py`: the requests that take a token one
after the other, and the responses that change the rate and pause the requests while one of them
sleeps. Times, rates and tokens are exact rationals.
-/
namespace AdaptiveLimiter

open LabelledRuns TokenBuckets

structure HorizonQuota where
  limit : ℤ
  remaining : ℤ
  resetSeconds : ℚ
  deriving DecidableEq

/-- The headers of a response as `int` and `float` read them, `none` where they are missing or
malformed. -/
structure Headers where
  limit : Option ℤ
  remaining : Option ℤ
  reset : Option ℚ
  retryAfter : Option ℚ
  deriving DecidableEq

def parseHorizonRateLimitHeaders (h : Headers) : Option HorizonQuota := do
  let limit ← h.limit
  let remaining ← h.remaining
  let reset ← h.reset
  if limit ≤ 0 ∨ remaining < 0 ∨ reset < 0 then none
  else some ⟨limit, min remaining limit, reset⟩

/-- `_retry_after`. -/
def retryAfter (h : Headers) : Option ℚ := h.retryAfter.map (max 0)

structure Config where
  rate : ℚ
  burst : Option ℚ
  maxRate : Option ℚ
  safetyFactor : ℚ
  maxBackoff : ℚ

/-- Who has the lock, and when it wakes. -/
inductive Lock where
  | free
  | pausing (wake : ℚ)
  | short (wake : ℚ)
  deriving DecidableEq

/-- `sent` is all of `_sent`, of which the metrics drop what is old. -/
structure Limiter where
  rate : ℚ
  capacity : ℚ
  tokens : ℚ
  lastRefill : ℚ
  pausedUntil : ℚ
  consecutive429 : ℕ
  sent : List ℚ
  quota : Option HorizonQuota
  lock : Lock
  now : ℚ
  deriving DecidableEq

def init (cfg : Config) (now : ℚ) : Option Limiter :=
  if cfg.rate ≤ 0 then none
  else
    let capacity := cfg.burst.getD (cfg.rate * 2)
    some ⟨cfg.rate, capacity, capacity, now, 0, 0, [], none, .free, now⟩

def refill (s : Limiter) : Limiter :=
  { s with
    tokens := min s.capacity (s.tokens + (s.now - s.lastRefill) * s.rate)
    lastRefill := s.now }

/-- The request is sent and the lock released. -/
def dispatch (s : Limiter) : Limiter :=
  { s with tokens := max 0 (s.tokens - 1), sent := s.sent ++ [s.now], lock := .free }

/-- `acquire` after the pause. -/
def takeToken (s : Limiter) : Limiter :=
  let s := refill s
  if s.tokens < 1 then { s with lock := .short (s.now + (1 - s.tokens) / s.rate) }
  else dispatch s

def acquire (s : Limiter) : Limiter :=
  let pause := s.pausedUntil - s.now
  if 0 < pause then { s with lock := .pausing (s.now + pause) } else takeToken s

/-- The pause is not looked at again. -/
def resume (s : Limiter) : Limiter := takeToken { s with lastRefill := max s.lastRefill s.now }

def on429 (cfg : Config) (s : Limiter) (retryAfter : Option ℚ) : Limiter :=
  let delay := retryAfter.getD (min cfg.maxBackoff (2 ^ s.consecutive429))
  let delay := min delay cfg.maxBackoff
  { refill s with
    consecutive429 := s.consecutive429 + 1
    rate := max (s.rate / 2) MIN_RATE
    tokens := 0
    pausedUntil := max s.pausedUntil (s.now + delay) }

def observeResponse (cfg : Config) (s : Limiter) (statusCode : ℕ) (headers : Headers) : Limiter :=
  if statusCode = 429 then on429 cfg s (retryAfter headers)
  else
    let s := { s with consecutive429 := 0 }
    match parseHorizonRateLimitHeaders headers with
    | none => s
    | some quota =>
      let pausedUntil :=
        if quota.remaining = 0 then max s.pausedUntil (s.now + quota.resetSeconds)
        else s.pausedUntil
      let target := cfg.safetyFactor * quota.remaining / max quota.resetSeconds 1
      let target := cfg.maxRate.elim target (min target)
      let s := refill s
      { s with
        rate := max target MIN_RATE
        tokens := min s.tokens quota.remaining
        pausedUntil := pausedUntil
        quota := some quota }

inductive Event where
  | wait (elapsed : ℚ≥0)
  | acquire
  | wake
  | response (statusCode : ℕ) (headers : Headers)

/-- A request gets the lock where it is free, and who sleeps wakes when it is time or later.
Responses come at any time. -/
def step (cfg : Config) (s : Limiter) : Event → Option Limiter
  | .wait elapsed => some { s with now := s.now + elapsed }
  | .acquire => if s.lock = .free then some (AdaptiveLimiter.acquire s) else none
  | .wake =>
    match s.lock with
    | .free => none
    | .pausing wake => if wake ≤ s.now then some (resume s) else none
    | .short wake => if wake ≤ s.now then some (dispatch (refill s)) else none
  | .response statusCode headers => some (observeResponse cfg s statusCode headers)

def Step (cfg : Config) (s : Limiter) (e : Event) (t : Limiter) : Prop := step cfg s e = some t

def pauseAsked (cfg : Config) (s : Limiter) (statusCode : ℕ) (headers : Headers) : ℚ :=
  if statusCode = 429 then
    min ((retryAfter headers).getD (min cfg.maxBackoff (2 ^ s.consecutive429))) cfg.maxBackoff
  else
    match parseHorizonRateLimitHeaders headers with
    | none => 0
    | some quota => if quota.remaining = 0 then quota.resetSeconds else 0

section

variable {cfg : Config} {s t u : Limiter} {e : Event} {es : List Event} {until_ : ℚ}

@[simp] theorem refill_sent : (refill s).sent = s.sent := rfl

@[simp] theorem refill_now : (refill s).now = s.now := rfl

@[simp] theorem refill_pausedUntil : (refill s).pausedUntil = s.pausedUntil := rfl

@[simp] theorem refill_lock : (refill s).lock = s.lock := rfl

/-- The sleeper that does not look at the pause again before it sends. -/
def MayPass (until_ : ℚ) (s : Limiter) : Prop :=
  s.now < until_ ∧
    match s.lock with
    | .free => False
    | .pausing wake => wake < until_
    | .short _ => True

def early (until_ : ℚ) (sent : List ℚ) : ℕ :=
  (sent.filter fun time => decide (time < until_)).length

/-- Only the sleeper is sent before the end of the pause, and no other takes its place. -/
structure Kept (until_ : ℚ) (s t : Limiter) : Prop where
  paused : until_ ≤ t.pausedUntil
  sent : ∃ new, t.sent = s.sent ++ new ∧
    (early until_ new = 0 ∧ (MayPass until_ t → MayPass until_ s) ∨
      early until_ new = 1 ∧ MayPass until_ s ∧ ¬ MayPass until_ t)

theorem early_singleton {time : ℚ} : early until_ [time] = if time < until_ then 1 else 0 := by
  unfold early
  split_ifs with h <;> simp [h]

theorem early_append {sent new : List ℚ} :
    early until_ (sent ++ new) = early until_ sent + early until_ new := by
  rw [early, List.filter_append, List.length_append]
  rfl

theorem Kept.silent (hpaused : until_ ≤ t.pausedUntil) (hsent : t.sent = s.sent)
    (hpass : MayPass until_ t → MayPass until_ s) : Kept until_ s t :=
  ⟨hpaused, [], by rw [hsent, List.append_nil], .inl ⟨rfl, hpass⟩⟩

theorem Kept.trans (h : Kept until_ s t) (h' : Kept until_ t u) : Kept until_ s u := by
  obtain ⟨new, hnew, hfirst⟩ := h.sent
  obtain ⟨new', hnew', hsecond⟩ := h'.sent
  refine ⟨h'.paused, new ++ new', by rw [hnew', hnew, List.append_assoc], ?_⟩
  rw [early_append]
  rcases hfirst with ⟨hnone, hback⟩ | ⟨hone, hpass, hgone⟩
  · rcases hsecond with ⟨hnone', hback'⟩ | ⟨hone', hpass', hgone'⟩
    · exact .inl ⟨by rw [hnone, hnone'], hback ∘ hback'⟩
    · exact .inr ⟨by rw [hnone, hone'], hback hpass', hgone'⟩
  · rcases hsecond with ⟨hnone', hback'⟩ | ⟨-, hpass', -⟩
    · exact .inr ⟨by rw [hone, hnone'], hpass, hgone ∘ hback'⟩
    · exact absurd hpass' hgone

theorem observeResponse_sent (statusCode : ℕ) (headers : Headers) :
    (observeResponse cfg s statusCode headers).sent = s.sent := by
  unfold observeResponse on429
  split_ifs
  · rfl
  · split <;> rfl

theorem observeResponse_lock (statusCode : ℕ) (headers : Headers) :
    (observeResponse cfg s statusCode headers).lock = s.lock := by
  unfold observeResponse on429
  split_ifs
  · rfl
  · split <;> rfl

theorem observeResponse_now (statusCode : ℕ) (headers : Headers) :
    (observeResponse cfg s statusCode headers).now = s.now := by
  unfold observeResponse on429
  split_ifs
  · rfl
  · split <;> rfl

theorem pausedUntil_le_observeResponse (statusCode : ℕ) (headers : Headers) :
    s.pausedUntil ≤ (observeResponse cfg s statusCode headers).pausedUntil := by
  unfold observeResponse on429
  split_ifs
  · exact le_max_left _ _
  · split
    · exact le_rfl
    · dsimp only
      split_ifs
      · exact le_max_left _ _
      · exact le_rfl

theorem pauseAsked_le (statusCode : ℕ) (headers : Headers)
    (hpos : 0 < pauseAsked cfg s statusCode headers) :
    s.now + pauseAsked cfg s statusCode headers ≤
      (observeResponse cfg s statusCode headers).pausedUntil := by
  unfold pauseAsked at *
  unfold observeResponse on429
  split_ifs with hstatus
  · exact le_max_right _ _
  · rw [if_neg hstatus] at hpos
    split at hpos
    · exact absurd hpos (lt_irrefl 0)
    · rename_i quota hquota
      split_ifs at hpos with hnone
      · simp only [if_pos hnone]
        exact le_max_right _ _
      · exact absurd hpos (lt_irrefl 0)

theorem not_mayPass_dispatch : ¬ MayPass until_ (dispatch s) := fun h => h.2

theorem Kept.dispatch (hpaused : until_ ≤ s.pausedUntil)
    (hpass : s.now < until_ → MayPass until_ s) : Kept until_ s (dispatch s) := by
  refine ⟨hpaused, [s.now], rfl, ?_⟩
  rw [early_singleton]
  split_ifs with hearly
  · exact .inr ⟨rfl, hpass hearly, not_mayPass_dispatch⟩
  · exact .inl ⟨rfl, fun h => absurd h not_mayPass_dispatch⟩

theorem Kept.takeToken (hpaused : until_ ≤ s.pausedUntil)
    (hpass : s.now < until_ → MayPass until_ s) : Kept until_ s (takeToken s) := by
  unfold AdaptiveLimiter.takeToken
  dsimp only
  split_ifs
  · exact .silent hpaused rfl fun h => hpass h.1
  · exact ⟨hpaused, (Kept.dispatch (s := refill s) hpaused hpass).sent⟩

theorem Kept.acquire (hpaused : until_ ≤ s.pausedUntil) : Kept until_ s (acquire s) := by
  unfold AdaptiveLimiter.acquire
  dsimp only
  split_ifs with hpause
  · refine .silent hpaused rfl fun h => ?_
    -- The new sleeper has looked at the pause.
    have hwake : s.now + (s.pausedUntil - s.now) < until_ := h.2
    linarith
  · exact .takeToken hpaused fun hearly => by linarith

theorem Kept.wake (h : Step cfg s .wake t) (hpaused : until_ ≤ s.pausedUntil) :
    Kept until_ s t := by
  unfold Step step at h
  dsimp only at h
  split at h
  · cases h
  · rename_i wake hlock
    split_ifs at h with hawake
    cases h
    have hpass (hearly : s.now < until_) : MayPass until_ s := by
      refine ⟨hearly, ?_⟩
      rw [hlock]
      exact hawake.trans_lt hearly
    have hkept := Kept.takeToken
      (s := { s with lastRefill := max s.lastRefill s.now }) hpaused hpass
    exact ⟨hkept.paused, hkept.sent⟩
  · rename_i wake hlock
    split_ifs at h with hawake
    cases h
    have hpass (hearly : s.now < until_) : MayPass until_ s := by
      refine ⟨hearly, ?_⟩
      rw [hlock]
      trivial
    exact ⟨hpaused, (Kept.dispatch (s := refill s) hpaused hpass).sent⟩

theorem Kept.step (h : Step cfg s e t) (hpaused : until_ ≤ s.pausedUntil) : Kept until_ s t := by
  cases e with
  | wait elapsed =>
    cases h
    refine .silent hpaused rfl fun hpass => ?_
    exact ⟨(le_add_of_nonneg_right elapsed.coe_nonneg).trans_lt hpass.1, hpass.2⟩
  | acquire =>
    unfold Step AdaptiveLimiter.step at h
    split_ifs at h
    cases h
    exact .acquire hpaused
  | wake => exact .wake h hpaused
  | response statusCode headers =>
    cases h
    apply Kept.silent (hpaused.trans (pausedUntil_le_observeResponse statusCode headers))
      (observeResponse_sent statusCode headers)
    unfold MayPass
    rw [observeResponse_lock, observeResponse_now]
    exact id

theorem Kept.run (h : Run (Step cfg) s es t) (hpaused : until_ ≤ s.pausedUntil) :
    Kept until_ s t := by
  induction h with
  | refl => exact .silent hpaused rfl id
  | tail _ hstep ih => exact ih.trans (.step hstep ih.paused)

end

/-- However requests and responses interleave after a response that asks for a pause, one request
at the most is sent in the pause, and none where no one had the lock when the response came. -/
theorem early_le_of_pause {cfg : Config} {s t : Limiter} {statusCode : ℕ} {headers : Headers}
    {es : List Event} (hpause : 0 < pauseAsked cfg s statusCode headers)
    (h : Run (Step cfg) (observeResponse cfg s statusCode headers) es t) :
    early (s.now + pauseAsked cfg s statusCode headers) (t.sent.drop s.sent.length) ≤
      if s.lock = .free then 0 else 1 := by
  have hkept := Kept.run h (pauseAsked_le statusCode headers hpause)
  obtain ⟨new, hnew, hearly⟩ := hkept.sent
  rw [observeResponse_sent] at hnew
  rw [hnew, List.drop_left]
  rcases hearly with ⟨hnone, -⟩ | ⟨hone, hpass, -⟩
  · rw [hnone]
    exact Nat.zero_le _
  · unfold MayPass at hpass
    rw [observeResponse_lock] at hpass
    rw [hone, if_neg]
    intro hfree
    rw [hfree] at hpass
    exact hpass.2

def sleeping : Limiter := ⟨1, 2, 0, 0, 0, 0, [], none, .short 1, 1 / 2⟩

def limits : Config := ⟨1, none, none, 9 / 10, 60⟩

def busy : Headers := ⟨none, none, none, some 5⟩

def told : Limiter := observeResponse limits sleeping 429 busy

theorem early_le_of_pause_sleeping :
    early (sleeping.now + pauseAsked limits sleeping 429 busy)
        ((dispatch (refill { told with now := 3 / 2 })).sent.drop sleeping.sent.length) ≤
      if sleeping.lock = .free then 0 else 1 := by
  have hpause : 0 < pauseAsked limits sleeping 429 busy := by decide +kernel
  have hwait : Step limits told (.wait 1) { told with now := 3 / 2 } := by
    unfold Step step
    decide +kernel
  have hwake : Step limits { told with now := 3 / 2 } .wake
      (dispatch (refill { told with now := 3 / 2 })) := by
    unfold Step step
    decide +kernel
  exact early_le_of_pause hpause (.tail (.single hwait) hwake)

end AdaptiveLimiter
