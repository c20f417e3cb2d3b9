import LedgerLens.MeteredGrants
import Mathlib.Algebra.Order.Archimedean.Basic
import Mathlib.Algebra.Order.Ring.Rat
import Mathlib.Data.Rat.Floor
import Mathlib.Tactic.NormNum

/-!
# The token bucket of the streamer

`ingestion/rate_limiter.py`: the bucket from which every streamed record takes a token, and the
controller that halves its rate on a 429 and restores it. Times, rates and tokens are exact
rationals.
-/
namespace TokenBuckets

open MeteredGrants

/-- `_MIN_RATE`. -/
def MIN_RATE : ℚ := 1 / 10

structure TokenBucket where
  rate : ℚ
  capacity : ℚ
  tokens : ℚ
  lastRefill : ℚ
  deriving DecidableEq

/-- `capacity or rate * 2.0`. -/
def capacityOf (rate : ℚ) : Option ℚ → ℚ
  | some capacity => if capacity = 0 then rate * 2 else capacity
  | none => rate * 2

/-- A rate that is not positive is a `ValueError`. -/
def TokenBucket.init (rate : ℚ) (capacity : Option ℚ) (now : ℚ) : Option TokenBucket :=
  if rate ≤ 0 then none
  else some ⟨rate, capacityOf rate capacity, capacityOf rate capacity, now⟩

def TokenBucket.setRate (b : TokenBucket) (newRate : ℚ) : TokenBucket :=
  { b with rate := max newRate MIN_RATE }

def TokenBucket.refill (b : TokenBucket) (now : ℚ) : TokenBucket :=
  { b with
    tokens := min b.capacity (b.tokens + (now - b.lastRefill) * b.rate)
    lastRefill := now }

def TokenBucket.tryAcquire (b : TokenBucket) (now : ℚ) : TokenBucket × Bool :=
  let b := b.refill now
  if 1 ≤ b.tokens then ({ b with tokens := b.tokens - 1 }, true) else (b, false)

def TokenBucket.bucketLevel (b : TokenBucket) (now : ℚ) : TokenBucket × ℚ :=
  (b.refill now, (b.refill now).tokens)

/-- What the streamer is given. -/
structure Config where
  rateLimit : ℚ
  bucketCapacity : Option ℚ
  restoreSeconds : ℚ

def Config.capacity (cfg : Config) : ℚ := capacityOf cfg.rateLimit cfg.bucketCapacity

structure Streamer where
  bucket : TokenBucket
  last429At : Option ℚ
  now : ℚ
  deriving DecidableEq

def on429 (s : Streamer) : Streamer :=
  { s with bucket := s.bucket.setRate (s.bucket.rate / 2), last429At := some s.now }

def tick (cfg : Config) (s : Streamer) : Streamer :=
  match s.last429At with
  | none => s
  | some at429 =>
    if cfg.restoreSeconds ≤ s.now - at429 then
      { s with bucket := s.bucket.setRate cfg.rateLimit, last429At := none }
    else
      let step := (cfg.rateLimit - s.bucket.rate) * (1 / cfg.restoreSeconds)
      { s with bucket := s.bucket.setRate (s.bucket.rate + step) }

inductive Call where
  | tryAcquire
  | bucketLevel
  | on429
  | tick
  deriving DecidableEq

/-- A call, so long after the one before it. -/
structure Event where
  elapsed : ℚ≥0
  call : Call

structure Run where
  streamer : Streamer
  grants : List ℚ

def Run.wait (r : Run) (elapsed : ℚ≥0) : Run :=
  { r with streamer := { r.streamer with now := r.streamer.now + elapsed } }

def Run.poll (r : Run) : Run × Bool :=
  let (bucket, granted) := r.streamer.bucket.tryAcquire r.streamer.now
  ({ streamer := { r.streamer with bucket := bucket },
     grants := if granted then r.grants ++ [r.streamer.now] else r.grants }, granted)

def Run.call (cfg : Config) (r : Run) : Call → Run
  | .tryAcquire => r.poll.1
  | .bucketLevel =>
    { r with streamer := { r.streamer with
        bucket := (r.streamer.bucket.bucketLevel r.streamer.now).1 } }
  | .on429 => { r with streamer := TokenBuckets.on429 r.streamer }
  | .tick => { r with streamer := TokenBuckets.tick cfg r.streamer }

def next (cfg : Config) (r : Run) (e : Event) : Run := (r.wait e.elapsed).call cfg e.call

def runFrom (cfg : Config) (r : Run) (events : List Event) : Run := events.foldl (next cfg) r

/-- The streamer is made at time zero of its clock. -/
def start (cfg : Config) : Run :=
  ⟨⟨⟨cfg.rateLimit, cfg.capacity, cfg.capacity, 0⟩, none, 0⟩, []⟩

def run (cfg : Config) (events : List Event) : Run := runFrom cfg (start cfg) events

theorem start_bucket {cfg : Config} (h : 0 < cfg.rateLimit) :
    TokenBucket.init cfg.rateLimit cfg.bucketCapacity 0 = some (start cfg).streamer.bucket := by
  rw [TokenBucket.init, if_neg (not_le.mpr h)]
  rfl

/-- What the bucket is for: over no window more tokens than the capacity and what the configured
rate yields, and whoever is refused a token gets one ten seconds later, where no other took one. -/
structure Throttles (cfg : Config) : Prop where
  bounded : ∀ events a b, a ≤ b →
    (within (run cfg events).grants a b : ℚ) ≤ cfg.capacity + cfg.rateLimit * (b - a)
  served : ∀ before between (elapsed : ℚ≥0) r r', run cfg before = r → r.poll.2 = false →
    runFrom cfg r.poll.1 between = r' → r'.grants = r.grants →
    r.streamer.now + 10 ≤ r'.streamer.now + elapsed → (r'.wait elapsed).poll.2 = true

section

variable {cfg : Config} {r r' : Run} {b : TokenBucket} {now : ℚ} {events : List Event}

theorem min_rate_pos : (0 : ℚ) < MIN_RATE := by norm_num [MIN_RATE]

@[simp] theorem setRate_rate (newRate : ℚ) : (b.setRate newRate).rate = max newRate MIN_RATE := rfl

@[simp] theorem setRate_capacity (newRate : ℚ) : (b.setRate newRate).capacity = b.capacity := rfl

@[simp] theorem setRate_tokens (newRate : ℚ) : (b.setRate newRate).tokens = b.tokens := rfl

@[simp] theorem setRate_lastRefill (newRate : ℚ) :
    (b.setRate newRate).lastRefill = b.lastRefill := rfl

theorem run_concat (events : List Event) (e : Event) :
    run cfg (events ++ [e]) = next cfg (run cfg events) e := by
  rw [run, runFrom, List.foldl_append]
  rfl

theorem run_append (before between : List Event) :
    run cfg (before ++ between) = runFrom cfg (run cfg before) between := by
  rw [run, runFrom, List.foldl_append]
  rfl

structure Rated (cfg : Config) (s : Streamer) : Prop where
  floor : MIN_RATE ≤ s.bucket.rate
  ceiling : s.bucket.rate ≤ cfg.rateLimit
  past429 : ∀ at429, s.last429At = some at429 → at429 ≤ s.now

/-- `restore_seconds` for which no tick restores more than what is missing. -/
def Gentle (restoreSeconds : ℚ) : Prop := restoreSeconds ≤ 0 ∨ 1 ≤ restoreSeconds

theorem Rated.on429 {s : Streamer} (h : Rated cfg s) : Rated cfg (on429 s) where
  floor := le_max_right _ _
  ceiling := by
    have := min_rate_pos
    apply max_le
    · linarith [h.floor, h.ceiling]
    · exact h.floor.trans h.ceiling
  past429 at429 hat := by
    cases hat
    exact le_rfl

theorem Rated.restored {s : Streamer} (h : Rated cfg s) (hone : 1 ≤ cfg.restoreSeconds) :
    s.bucket.rate + (cfg.rateLimit - s.bucket.rate) * (1 / cfg.restoreSeconds) ≤
      cfg.rateLimit := by
  have hpart : 1 / cfg.restoreSeconds ≤ 1 := by
    rw [div_le_one (by linarith)]
    exact hone
  have hmissing : 0 ≤ cfg.rateLimit - s.bucket.rate := sub_nonneg.mpr h.ceiling
  have := mul_le_mul_of_nonneg_left hpart hmissing
  linarith

theorem Rated.tick {s : Streamer} (h : Rated cfg s) (hgentle : Gentle cfg.restoreSeconds) :
    Rated cfg (tick cfg s) := by
  have hmin : MIN_RATE ≤ cfg.rateLimit := h.floor.trans h.ceiling
  unfold TokenBuckets.tick
  split
  · exact h
  · rename_i at429 hat
    split_ifs with helapsed
    · exact ⟨le_max_right _ _, max_le le_rfl hmin, nofun⟩
    · -- The tick comes before the rate is due, so the time to restore it is positive.
      have hone : 1 ≤ cfg.restoreSeconds := by
        rcases hgentle with hzero | hone
        · exact absurd (hzero.trans (sub_nonneg.mpr (h.past429 at429 hat))) helapsed
        · exact hone
      exact ⟨le_max_right _ _, max_le (h.restored hone) hmin, fun _ heq => h.past429 _ heq⟩

section

variable {s : Streamer}

@[simp] theorem tick_capacity : (tick cfg s).bucket.capacity = s.bucket.capacity := by
  unfold tick
  split
  · rfl
  · split_ifs <;> rfl

@[simp] theorem tick_tokens : (tick cfg s).bucket.tokens = s.bucket.tokens := by
  unfold tick
  split
  · rfl
  · split_ifs <;> rfl

@[simp] theorem tick_lastRefill : (tick cfg s).bucket.lastRefill = s.bucket.lastRefill := by
  unfold tick
  split
  · rfl
  · split_ifs <;> rfl

@[simp] theorem tick_now : (tick cfg s).now = s.now := by
  unfold tick
  split
  · rfl
  · split_ifs <;> rfl

end

theorem refill_le_capacity : (b.refill now).tokens ≤ b.capacity := min_le_left _ _

theorem refill_le (b : TokenBucket) (now : ℚ) :
    (b.refill now).tokens ≤ b.tokens + (now - b.lastRefill) * b.rate :=
  min_le_right _ _

/-- What every step keeps. -/
structure Kept (cfg : Config) (r : Run) : Prop where
  rated : Rated cfg r.streamer
  capacity : r.streamer.bucket.capacity = cfg.capacity
  nonneg : 0 ≤ r.streamer.bucket.tokens
  past : r.streamer.bucket.lastRefill ≤ r.streamer.now
  metered : Metered cfg.capacity cfg.rateLimit r.streamer.bucket.tokens
    r.streamer.bucket.lastRefill r.grants

theorem Kept.start (hmin : MIN_RATE ≤ cfg.rateLimit) (hcapacity : 0 ≤ cfg.capacity) :
    Kept cfg (start cfg) where
  rated := ⟨hmin, le_rfl, nofun⟩
  capacity := rfl
  nonneg := hcapacity
  past := le_rfl
  metered := .start le_rfl hcapacity (min_rate_pos.le.trans hmin)

theorem Kept.wait (h : Kept cfg r) (elapsed : ℚ≥0) : Kept cfg (r.wait elapsed) where
  rated := ⟨h.rated.floor, h.rated.ceiling, fun at429 hat =>
    (h.rated.past429 at429 hat).trans (le_add_of_nonneg_right elapsed.coe_nonneg)⟩
  capacity := h.capacity
  nonneg := h.nonneg
  past := h.past.trans (le_add_of_nonneg_right elapsed.coe_nonneg)
  metered := h.metered

section

variable (h : Kept cfg r) (hcapacity : 0 ≤ cfg.capacity)
include h hcapacity

theorem Kept.refill_nonneg : 0 ≤ (r.streamer.bucket.refill r.streamer.now).tokens := by
  have hrate : 0 ≤ r.streamer.bucket.rate := min_rate_pos.le.trans h.rated.floor
  have := mul_nonneg (sub_nonneg.mpr h.past) hrate
  exact le_min (h.capacity ▸ hcapacity) (by linarith [h.nonneg])

omit hcapacity in
theorem Kept.refill_metered : Metered cfg.capacity cfg.rateLimit
    (r.streamer.bucket.refill r.streamer.now).tokens r.streamer.now r.grants := by
  have hrate : 0 ≤ cfg.rateLimit :=
    min_rate_pos.le.trans (h.rated.floor.trans h.rated.ceiling)
  apply h.metered.refill h.past hrate
  · exact h.capacity ▸ refill_le_capacity
  · have hfaster := mul_le_mul_of_nonneg_left h.rated.ceiling (sub_nonneg.mpr h.past)
    have := refill_le r.streamer.bucket r.streamer.now
    linarith

theorem Kept.poll : Kept cfg r.poll.1 := by
  have hrate : 0 ≤ cfg.rateLimit :=
    min_rate_pos.le.trans (h.rated.floor.trans h.rated.ceiling)
  unfold Run.poll TokenBucket.tryAcquire
  dsimp only
  split_ifs with henough hgranted hgranted
  · exact {
      rated := ⟨h.rated.floor, h.rated.ceiling, h.rated.past429⟩
      capacity := h.capacity
      nonneg := sub_nonneg.mpr henough
      past := le_rfl
      metered := h.refill_metered.grant hrate (sub_add_cancel _ _).le (sub_nonneg.mpr henough) }
  · exact absurd rfl hgranted
  · cases hgranted
  · exact {
      rated := ⟨h.rated.floor, h.rated.ceiling, h.rated.past429⟩
      capacity := h.capacity
      nonneg := h.refill_nonneg hcapacity
      past := le_rfl
      metered := h.refill_metered }

theorem Kept.call (hgentle : Gentle cfg.restoreSeconds) (call : Call) :
    Kept cfg (r.call cfg call) := by
  cases call with
  | tryAcquire => exact h.poll hcapacity
  | bucketLevel => exact {
      rated := ⟨h.rated.floor, h.rated.ceiling, h.rated.past429⟩
      capacity := h.capacity
      nonneg := h.refill_nonneg hcapacity
      past := le_rfl
      metered := h.refill_metered }
  | on429 => exact ⟨h.rated.on429, h.capacity, h.nonneg, h.past, h.metered⟩
  | tick => exact {
      rated := h.rated.tick hgentle
      capacity := by simpa [Run.call] using h.capacity
      nonneg := by simpa [Run.call] using h.nonneg
      past := by simpa [Run.call] using h.past
      metered := by simpa [Run.call] using h.metered }

theorem Kept.runFrom (hgentle : Gentle cfg.restoreSeconds) (events : List Event) :
    Kept cfg (runFrom cfg r events) := by
  induction events generalizing r with
  | nil => exact h
  | cons e events ih => exact ih ((h.wait e.elapsed).call hcapacity hgentle e.call)

end

theorem poll_grants_eq_iff : r.poll.1.grants = r.grants ↔ r.poll.2 = false := by
  unfold Run.poll TokenBucket.tryAcquire
  dsimp only
  split_ifs <;> simp_all

theorem grants_prefix_call (call : Call) : r.grants <+: (r.call cfg call).grants := by
  cases call with
  | tryAcquire =>
    unfold Run.call Run.poll
    dsimp only
    split_ifs
    · exact List.prefix_append _ _
    · exact List.prefix_refl _
  | bucketLevel => exact List.prefix_refl _
  | on429 => exact List.prefix_refl _
  | tick => exact List.prefix_refl _

theorem grants_prefix_runFrom (events : List Event) :
    r.grants <+: (runFrom cfg r events).grants := by
  induction events generalizing r with
  | nil => exact List.prefix_refl _
  | cons e events ih => exact (grants_prefix_call (r := r.wait e.elapsed) e.call).trans ih

/-- Since the refusal the bucket has filled at the minimal rate at least. -/
structure Filling (cfg : Config) (refusedAt : ℚ) (r : Run) : Prop where
  after : refusedAt ≤ r.streamer.bucket.lastRefill
  level : min cfg.capacity (MIN_RATE * (r.streamer.bucket.lastRefill - refusedAt)) ≤
    r.streamer.bucket.tokens

theorem Filling.refill {refusedAt : ℚ} (h : Filling cfg refusedAt r) (hkept : Kept cfg r) :
    min cfg.capacity (MIN_RATE * (r.streamer.now - refusedAt)) ≤
      (r.streamer.bucket.refill r.streamer.now).tokens := by
  have hpast := sub_nonneg.mpr hkept.past
  have hrise := mul_le_mul_of_nonneg_left hkept.rated.floor hpast
  have hmin := mul_nonneg hpast min_rate_pos.le
  apply le_min
  · exact hkept.capacity ▸ min_le_left _ _
  · rcases min_le_iff.mp h.level with hfull | hpart
    · exact (min_le_left _ _).trans (by linarith)
    · exact (min_le_right _ _).trans (by linarith)

theorem Filling.call {refusedAt : ℚ} (h : Filling cfg refusedAt r) (hkept : Kept cfg r)
    (call : Call) (hnone : (r.call cfg call).grants = r.grants) :
    Filling cfg refusedAt (r.call cfg call) := by
  have hrefilled := h.refill hkept
  have hafter := h.after.trans hkept.past
  cases call with
  | tryAcquire =>
    have hrefused := poll_grants_eq_iff.mp hnone
    unfold Run.call Run.poll TokenBucket.tryAcquire at *
    dsimp only at *
    split_ifs at hrefused ⊢
    · exact ⟨hafter, hrefilled⟩
    · exact ⟨hafter, hrefilled⟩
  | bucketLevel => exact ⟨hafter, hrefilled⟩
  | on429 => exact ⟨h.after, h.level⟩
  | tick => exact ⟨by simpa [Run.call] using h.after, by simpa [Run.call] using h.level⟩

theorem Filling.runFrom {refusedAt : ℚ} (h : Filling cfg refusedAt r) (hkept : Kept cfg r)
    (hcapacity : 0 ≤ cfg.capacity) (hgentle : Gentle cfg.restoreSeconds) {events : List Event}
    (hnone : (runFrom cfg r events).grants = r.grants) :
    Filling cfg refusedAt (runFrom cfg r events) := by
  induction events generalizing r with
  | nil => exact h
  | cons e events ih =>
    have hwait := hkept.wait e.elapsed
    -- Grants are never taken back, so that none at the end is none at this step.
    have hfirst : r.grants <+: (next cfg r e).grants :=
      grants_prefix_call (r := r.wait e.elapsed) e.call
    have hrest : (next cfg r e).grants <+: r.grants :=
      hnone ▸ grants_prefix_runFrom (r := next cfg r e) events
    have hsame : (next cfg r e).grants = r.grants := hrest.eq_of_length_le hfirst.length_le
    have hfilling : Filling cfg refusedAt (next cfg r e) :=
      Filling.call (r := r.wait e.elapsed) ⟨h.after, h.level⟩ hwait e.call hsame
    exact ih hfilling (hwait.call hcapacity hgentle e.call) (hnone.trans hsame.symm)

theorem Kept.filling_of_poll (h : Kept cfg r) (hcapacity : 0 ≤ cfg.capacity) :
    Filling cfg r.streamer.now r.poll.1 := by
  have hnonneg := (h.poll hcapacity).nonneg
  have hlast : r.poll.1.streamer.bucket.lastRefill = r.streamer.now := by
    unfold Run.poll TokenBucket.tryAcquire
    dsimp only
    split_ifs <;> rfl
  constructor
  · exact hlast.ge
  · rw [hlast, sub_self, mul_zero]
    exact (min_le_right _ _).trans hnonneg

theorem poll_of_enough (h : 1 ≤ (r.streamer.bucket.refill r.streamer.now).tokens) :
    r.poll.2 = true := by
  unfold Run.poll TokenBucket.tryAcquire
  simp only [if_pos h]

theorem poll_refused (h : (r.streamer.bucket.refill r.streamer.now).tokens < 1) :
    r.poll.2 = false := by
  unfold Run.poll TokenBucket.tryAcquire
  simp only [if_neg (not_le.mpr h)]

theorem throttles (hmin : MIN_RATE ≤ cfg.rateLimit) (hcapacity : 1 ≤ cfg.capacity)
    (hgentle : Gentle cfg.restoreSeconds) : Throttles cfg := by
  have hzero : 0 ≤ cfg.capacity := by linarith
  have hstart : Kept cfg (start cfg) := .start hmin hzero
  constructor
  · intro events a b hab
    exact (hstart.runFrom hzero hgentle events).metered.within a b hab
  · rintro before between elapsed r r' rfl hrefused rfl hnone hlater
    have hkept : Kept cfg (run cfg before) := hstart.runFrom hzero hgentle before
    have hgrants := poll_grants_eq_iff.mpr hrefused
    have hfilling := (hkept.filling_of_poll hzero).runFrom (hkept.poll hzero) hzero
      hgentle (hnone.trans hgrants.symm)
    have hagain := ((hkept.poll hzero).runFrom hzero hgentle between).wait elapsed
    apply poll_of_enough
    refine le_trans ?_ (Filling.refill ⟨hfilling.after, hfilling.level⟩ hagain)
    apply le_min hcapacity
    unfold MIN_RATE
    simp only [Run.wait]
    linarith

/-- A bucket that holds less than a token never grants one. -/
theorem not_throttles_of_small (hcapacity : cfg.capacity < 1) :
    ¬ Throttles cfg := by
  intro h
  have hsmall (r : Run) (hr : r.streamer.bucket.capacity = cfg.capacity) : r.poll.2 = false :=
    poll_refused (refill_le_capacity.trans_lt (hr ▸ hcapacity))
  have hfirst := hsmall (start cfg) rfl
  have hsame := poll_grants_eq_iff.mpr hfirst
  have hagain := h.served [] [] 10 (start cfg) (start cfg).poll.1 rfl hfirst rfl hsame
    (le_of_eq rfl)
  have hcap : (start cfg).poll.1.streamer.bucket.capacity = cfg.capacity := by
    unfold Run.poll TokenBucket.tryAcquire
    dsimp only
    split_ifs <;> rfl
  rw [hsmall ((start cfg).poll.1.wait 10) hcap] at hagain
  cases hagain

/-- The rate after a 429 and a tick at once. -/
def overshoot (cfg : Config) : ℚ :=
  max (cfg.rateLimit / 2) MIN_RATE +
    (cfg.rateLimit - max (cfg.rateLimit / 2) MIN_RATE) * (1 / cfg.restoreSeconds)

theorem lt_overshoot (hmin : MIN_RATE < cfg.rateLimit) (hpos : 0 < cfg.restoreSeconds)
    (hone : cfg.restoreSeconds < 1) : cfg.rateLimit < overshoot cfg := by
  have hmissing : 0 < cfg.rateLimit - max (cfg.rateLimit / 2) MIN_RATE := by
    have := min_rate_pos
    exact sub_pos.mpr (max_lt (by linarith) hmin)
  have hmore : 1 < 1 / cfg.restoreSeconds := by rwa [lt_div_iff₀ hpos, one_mul]
  have := mul_lt_mul_of_pos_left hmore hmissing
  unfold overshoot
  linarith

/-- Before the polls, with the rate too high. -/
structure Saturated (cfg : Config) (count : ℕ) (r : Run) : Prop where
  rate : r.streamer.bucket.rate = overshoot cfg
  capacity : r.streamer.bucket.capacity = cfg.capacity
  tokens : r.streamer.bucket.tokens = cfg.capacity - 1
  now : r.streamer.now = count / overshoot cfg
  lastRefill : r.streamer.bucket.lastRefill = r.streamer.now
  grants : r.grants.length = count + 1
  during : ∀ g ∈ r.grants, 0 ≤ g ∧ g ≤ r.streamer.now

theorem Saturated.poll {count : ℕ} (h : Saturated cfg count r) (hpos : 0 < overshoot cfg)
    {elapsed : ℚ≥0} (helapsed : (elapsed : ℚ) = 1 / overshoot cfg) (hcapacity : 1 ≤ cfg.capacity) :
    Saturated cfg (count + 1) (next cfg r ⟨elapsed, .tryAcquire⟩) := by
  have htokens : ((r.wait elapsed).streamer.bucket.refill (r.wait elapsed).streamer.now).tokens =
      cfg.capacity := by
    have hyield : 1 / overshoot cfg * overshoot cfg = 1 := one_div_mul_cancel hpos.ne'
    simp only [Run.wait, TokenBucket.refill, h.capacity, h.tokens, h.lastRefill, h.rate,
      add_sub_cancel_left, helapsed, hyield, sub_add_cancel, min_self]
  have hgranted : 1 ≤
      ((r.wait elapsed).streamer.bucket.refill (r.wait elapsed).streamer.now).tokens :=
    htokens ▸ hcapacity
  have hnow : r.streamer.now + elapsed = (count + 1 : ℕ) / overshoot cfg := by
    rw [h.now, helapsed]
    push_cast
    ring
  have hlater : 0 ≤ (elapsed : ℚ) := elapsed.coe_nonneg
  have hzero : 0 ≤ r.streamer.now := by
    rw [h.now]
    exact div_nonneg count.cast_nonneg hpos.le
  simp only [next, Run.call, Run.poll, TokenBucket.tryAcquire, if_pos hgranted, if_true]
  exact {
    rate := h.rate
    capacity := h.capacity
    tokens := congrArg (· - 1) htokens
    now := hnow
    lastRefill := rfl
    grants := by rw [List.length_append, List.length_singleton]; exact congrArg (· + 1) h.grants
    during := by
      intro g hg
      simp only [Run.wait] at hg ⊢
      rcases List.mem_append.mp hg with hg | hg
      · obtain ⟨hlow, hhigh⟩ := h.during g hg
        exact ⟨hlow, by linarith⟩
      · rw [List.mem_singleton.mp hg]
        exact ⟨by linarith, le_rfl⟩ }

/-- A 429, a tick and a poll at time zero. -/
def burst : List Event := [⟨0, .on429⟩, ⟨0, .tick⟩, ⟨0, .tryAcquire⟩]

theorem saturated_burst (hmin : MIN_RATE < cfg.rateLimit) (hpos : 0 < cfg.restoreSeconds)
    (hone : cfg.restoreSeconds < 1) (hcapacity : 1 ≤ cfg.capacity) :
    Saturated cfg 0 (run cfg burst) := by
  have hrate := lt_overshoot hmin hpos hone
  have hmax : max (overshoot cfg) MIN_RATE = overshoot cfg := max_eq_left (by linarith)
  have htick : tick cfg (TokenBuckets.on429 (start cfg).streamer) =
      ⟨⟨overshoot cfg, cfg.capacity, cfg.capacity, 0⟩, some 0, 0⟩ := by
    unfold tick
    simp only [TokenBuckets.on429, start, sub_zero, if_neg (not_le.mpr hpos)]
    exact congrArg (fun rate => Streamer.mk ⟨rate, cfg.capacity, cfg.capacity, 0⟩ (some 0) 0) hmax
  have hwait (r : Run) : r.wait 0 = r := by
    simp [Run.wait]
  simp only [run, runFrom, burst, List.foldl_cons, List.foldl_nil, next, Run.call, hwait]
  rw [htick]
  simp only [Run.poll, TokenBucket.tryAcquire, TokenBucket.refill, sub_zero, zero_mul, add_zero,
    min_self, if_pos hcapacity, start, if_true, List.nil_append]
  exact ⟨rfl, rfl, rfl, by simp, rfl, rfl, by simp⟩

theorem not_throttles_of_overshoot (hmin : MIN_RATE < cfg.rateLimit)
    (hpos : 0 < cfg.restoreSeconds) (hone : cfg.restoreSeconds < 1)
    (hcapacity : 1 ≤ cfg.capacity) : ¬ Throttles cfg := by
  intro h
  have hrate := lt_overshoot hmin hpos hone
  have hover : 0 < overshoot cfg := by linarith [min_rate_pos]
  obtain ⟨elapsed, helapsed⟩ : ∃ elapsed : ℚ≥0, (elapsed : ℚ) = 1 / overshoot cfg :=
    ⟨⟨1 / overshoot cfg, (one_div_pos.mpr hover).le⟩, rfl⟩
  have hpolls (count : ℕ) : Saturated cfg count
      (run cfg (burst ++ List.replicate count ⟨elapsed, .tryAcquire⟩)) := by
    induction count with
    | zero =>
      rw [List.replicate_zero, List.append_nil]
      exact saturated_burst hmin hpos hone hcapacity
    | succ count ih =>
      rw [List.replicate_succ', ← List.append_assoc, run_concat]
      exact ih.poll hover helapsed hcapacity
  have hshare : 0 < 1 - cfg.rateLimit / overshoot cfg := by
    rw [sub_pos, div_lt_one hover]
    exact hrate
  obtain ⟨count, hcount⟩ := exists_nat_gt (cfg.capacity / (1 - cfg.rateLimit / overshoot cfg))
  rw [div_lt_iff₀ hshare] at hcount
  have hall := hpolls count
  have hbounded := h.bounded (burst ++ List.replicate count ⟨elapsed, .tryAcquire⟩) 0
    (count / overshoot cfg) (div_nonneg count.cast_nonneg hover.le)
  rw [within, List.filter_eq_self.mpr, hall.grants] at hbounded
  · have hshape : cfg.rateLimit * ((count : ℚ) / overshoot cfg - 0) =
        count * (cfg.rateLimit / overshoot cfg) := by ring
    rw [hshape] at hbounded
    push_cast at hbounded
    linarith
  · intro g hg
    exact decide_eq_true (hall.now ▸ hall.during g hg)

end

/-- At a rate above the least one the bucket throttles exactly where it holds a token and the rate
takes at least a second to be restored, or is restored at once. -/
theorem throttles_iff {cfg : Config} (hrate : MIN_RATE < cfg.rateLimit) :
    Throttles cfg ↔ 1 ≤ cfg.capacity ∧ (cfg.restoreSeconds ≤ 0 ∨ 1 ≤ cfg.restoreSeconds) := by
  constructor
  · intro h
    have hcapacity : 1 ≤ cfg.capacity := by
      by_contra hsmall
      exact not_throttles_of_small (not_le.mp hsmall) h
    refine ⟨hcapacity, ?_⟩
    by_contra hfast
    obtain ⟨hpos, hone⟩ := not_or.mp hfast
    exact not_throttles_of_overshoot hrate (not_le.mp hpos) (not_le.mp hone) hcapacity h
  · rintro ⟨hcapacity, hgentle⟩
    exact throttles hrate.le hcapacity hgentle

theorem throttles_iff_default : Throttles ⟨50, some 100, 60⟩ ↔
    1 ≤ Config.capacity ⟨50, some 100, 60⟩ ∧ ((60 : ℚ) ≤ 0 ∨ (1 : ℚ) ≤ 60) :=
  throttles_iff (by norm_num [MIN_RATE])

end TokenBuckets
