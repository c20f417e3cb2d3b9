import Mathlib.Algebra.Order.Floor.Ring
import Mathlib.Data.List.Induction
import Mathlib.Data.Rat.Floor
import Mathlib.Tactic.Linarith

/-!
# The rate limiter

`detection/rate_limiter.py`: the sliding window counter that runs in Redis, and the log of request
times that replaces it while Redis is away. Times are exact rationals.
-/
namespace RateLimiter

/-- `int(x)`. -/
def toInt (x : ℚ) : ℤ := if 0 ≤ x then ⌊x⌋ else ⌈x⌉

/-! ## Redis -/

structure Counter where
  count : ℕ
  expiresAt : ℚ
  deriving DecidableEq

/-- The keys are `ll:ratelimit:{key_id}:bucket`. -/
abbrev Store := String → ℤ → Option Counter

def Store.get (store : Store) (now : ℚ) (keyId : String) (bucket : ℤ) : ℕ :=
  match store keyId bucket with
  | some counter => if now ≤ counter.expiresAt then counter.count else 0
  | none => 0

def Store.put (store : Store) (keyId : String) (bucket : ℤ) (counter : Option Counter) : Store :=
  fun keyId' bucket' => if keyId' = keyId ∧ bucket' = bucket then counter else store keyId' bucket'

/-- `INCR`, and `EXPIRE` where the key is new. An expiry of zero seconds deletes the key. -/
def Store.incr (store : Store) (now : ℚ) (window : ℤ) (keyId : String) (bucket : ℤ) : Store :=
  let newval := store.get now keyId bucket + 1
  if newval = 1 then
    store.put keyId bucket (if 0 < window * 2 then some ⟨1, now + window * 2⟩ else none)
  else
    store.put keyId bucket
      ((store keyId bucket).map fun counter => { counter with count := newval })

/-- `a % b` of the script. -/
def luaMod (a : ℚ) (b : ℤ) : ℚ := a - b * ⌊a / b⌋

def slidingWindow (limit window : ℤ) (now : ℚ) (keyId : String) (bucket : ℤ) (store : Store) :
    Store × Bool × ℤ :=
  let elapsed := luaMod now window
  let weight := (window - elapsed) / window
  let prev := store.get now keyId (bucket - 1)
  let curr := store.get now keyId bucket
  let estimated := prev * weight + curr
  -- In a window of zero the estimate is not a number, and no comparison with it holds.
  if window ≠ 0 ∧ (limit : ℚ) ≤ estimated then (store, false, ⌊window - elapsed⌋ + 1)
  else (store.incr now window keyId bucket, true, 0)

/-! ## The limiter -/

structure State where
  store : Store
  localWindows : String → List ℚ

def State.init : State := ⟨fun _ _ => none, fun _ => []⟩

/-- Redis answers, its answer is lost after the script has run, or it is away: the call raises
before the script, the circuit is open, or there is no connection. -/
inductive Reply where
  | answers
  | lost
  | away
  deriving DecidableEq

structure Request where
  keyId : String
  time : ℚ
  reply : Reply
  deriving DecidableEq

structure Config where
  limit : String → ℤ
  windowSeconds : ℚ

def bucketOf (windowSeconds now : ℚ) : ℤ := ⌊now / windowSeconds⌋

def checkRedis (cfg : Config) (s : State) (r : Request) : State × Bool × ℤ :=
  let (store, answer) := slidingWindow (cfg.limit r.keyId) (toInt cfg.windowSeconds) r.time r.keyId
    (bucketOf cfg.windowSeconds r.time) s.store
  ({ s with store := store }, answer)

def setWindow (s : State) (keyId : String) (timestamps : List ℚ) : State :=
  { s with localWindows := fun keyId' =>
      if keyId' = keyId then timestamps else s.localWindows keyId' }

def checkLocal (cfg : Config) (s : State) (r : Request) : State × Bool × ℤ :=
  let cutoff := r.time - cfg.windowSeconds
  let timestamps := (s.localWindows r.keyId).filter fun t => decide (cutoff < t)
  if cfg.limit r.keyId ≤ timestamps.length then
    (setWindow s r.keyId timestamps, false,
      toInt (cfg.windowSeconds - (r.time - timestamps.headD 0)) + 1)
  else (setWindow s r.keyId (timestamps ++ [r.time]), true, 0)

/-- The state afterwards, whether the request is allowed, and the seconds to wait. -/
def check (cfg : Config) (s : State) (r : Request) : State × Bool × ℤ :=
  if cfg.limit r.keyId ≤ 0 then (s, true, 0)
  else match r.reply with
    | .answers => checkRedis cfg s r
    | .lost => checkLocal cfg (checkRedis cfg s r).1 r
    | .away => checkLocal cfg s r

def serve (cfg : Config) (run : State × List Request) (r : Request) : State × List Request :=
  ((check cfg run.1 r).1, if (check cfg run.1 r).2.1 then run.2 ++ [r] else run.2)

def served (cfg : Config) (requests : List Request) : State × List Request :=
  requests.foldl (serve cfg) (.init, [])

def accepted (cfg : Config) (requests : List Request) : List Request := (served cfg requests).2

def answer (cfg : Config) (requests : List Request) (r : Request) : Bool × ℤ :=
  (check cfg (served cfg requests).1 r).2

def InOrder (requests : List Request) : Prop := requests.Pairwise fun r r' => r.time ≤ r'.time

/-- The times in `[start, start + window]` at which requests of a key are accepted. -/
def acceptedWithin (cfg : Config) (requests : List Request) (keyId : String) (start : ℚ) :
    List Request :=
  (accepted cfg requests).filter fun r =>
    decide (r.keyId = keyId ∧ start ≤ r.time ∧ r.time ≤ start + cfg.windowSeconds)

/-- What the limiter is for, where Redis takes each request in one of the ways given: no window lets
through more than twice the limit, and a rejected request that comes again after the time it was
told, with none of its key in between, is accepted. -/
structure Promise (cfg : Config) (replies : Set Reply) : Prop where
  bounded : ∀ requests, InOrder requests → (∀ r ∈ requests, r.reply ∈ replies) →
    ∀ keyId start,
      ((acceptedWithin cfg requests keyId start).length : ℤ) ≤ 2 * cfg.limit keyId
  retried : ∀ earlier between r r' retryAfter, InOrder (earlier ++ r :: between ++ [r']) →
    (∀ q ∈ earlier ++ r :: between ++ [r'], q.reply ∈ replies) →
    r'.keyId = r.keyId → (∀ q ∈ between, q.keyId ≠ r.keyId) →
    answer cfg earlier r = (false, retryAfter) → r.time + retryAfter ≤ r'.time →
    (answer cfg (earlier ++ r :: between) r').1 = true

section

variable {cfg : Config} {requests earlier between : List Request} {q r r' : Request}
  {run : State × List Request} {keyId : String} {W now : ℚ} {b : ℤ}

theorem served_concat (requests : List Request) (r : Request) :
    served cfg (requests ++ [r]) = serve cfg (served cfg requests) r := by
  rw [served, List.foldl_append]
  rfl

theorem mem_serve (h : q ∈ (serve cfg run r).2) : q ∈ run.2 ∨ q = r := by
  unfold serve at h
  split_ifs at h
  · exact (List.mem_append.mp h).imp_right List.mem_singleton.mp
  · exact .inl h

theorem accepted_subset : accepted cfg requests ⊆ requests := by
  induction requests using List.reverseRecOn with
  | nil => exact List.Subset.refl _
  | append_singleton requests r ih =>
    intro q hq
    rw [accepted, served_concat] at hq
    rcases mem_serve hq with hq | rfl
    · exact List.mem_append_left _ (ih hq)
    · exact List.mem_append_right _ (List.mem_singleton_self q)

theorem time_le_of_mem (horder : InOrder (earlier ++ r :: between ++ [r']))
    (hbetween : ∀ q ∈ between, q.keyId ≠ r.keyId) (hq : q ∈ earlier ++ r :: between)
    (hkey : q.keyId = r.keyId) : q.time ≤ r.time := by
  rw [InOrder, List.append_assoc, List.pairwise_append] at horder
  rcases List.mem_append.mp hq with hq | hq
  · exact horder.2.2 q hq r List.mem_cons_self
  · rcases List.mem_cons.mp hq with rfl | hq
    · exact le_rfl
    · exact absurd hkey (hbetween q hq)

/-! ## Buckets -/

theorem bucketOf_le_iff (hW : 0 < W) : b ≤ bucketOf W now ↔ b * W ≤ now := by
  rw [bucketOf, Int.le_floor, le_div_iff₀ hW]

theorem bucketOf_lt_iff (hW : 0 < W) : bucketOf W now < b ↔ now < b * W := by
  rw [bucketOf, Int.floor_lt, div_lt_iff₀ hW]

def inBucket (W : ℚ) (keyId : String) (b : ℤ) (requests : List Request) : List Request :=
  requests.filter fun r => decide (r.keyId = keyId ∧ bucketOf W r.time = b)

theorem inBucket_concat : inBucket W keyId b (requests ++ [r]) = inBucket W keyId b requests ++
    if r.keyId = keyId ∧ bucketOf W r.time = b then [r] else [] := by
  rw [inBucket, inBucket, List.filter_append, List.filter_singleton]
  simp

theorem length_filter_le_add {α : Type*} {p p₁ p₂ : α → Bool} (l : List α)
    (h : ∀ a, p a = true → p₁ a = true ∨ p₂ a = true) :
    (l.filter p).length ≤ (l.filter p₁).length + (l.filter p₂).length := by
  induction l with
  | nil => exact le_rfl
  | cons a l ih =>
    simp only [List.filter_cons]
    have := h a
    split_ifs <;> simp_all <;> omega

theorem within_le_buckets (hW : 0 < W) (requests : List Request) (keyId : String) (start : ℚ) :
    (requests.filter fun r =>
      decide (r.keyId = keyId ∧ start ≤ r.time ∧ r.time ≤ start + W)).length ≤
    (inBucket W keyId (bucketOf W start) requests).length +
      (inBucket W keyId (bucketOf W start + 1) requests).length := by
  apply length_filter_le_add
  intro r hr
  obtain ⟨hkey, hstart, hend⟩ := of_decide_eq_true hr
  have hlow : bucketOf W start ≤ bucketOf W r.time := by
    rw [bucketOf_le_iff hW]
    exact ((bucketOf_le_iff hW).mp le_rfl).trans hstart
  have hhigh : bucketOf W r.time < bucketOf W start + 2 := by
    have hlt := (bucketOf_lt_iff hW).mp (Int.lt_add_one_of_le (le_refl (bucketOf W start)))
    rw [bucketOf_lt_iff hW]
    push_cast at hlt ⊢
    linarith
  rcases (show bucketOf W r.time = bucketOf W start ∨ bucketOf W r.time = bucketOf W start + 1 by
    omega) with heq | heq
  · exact .inl (decide_eq_true ⟨hkey, heq⟩)
  · exact .inr (decide_eq_true ⟨hkey, heq⟩)

/-! ## The counters -/

/-- Each counter has the accepted requests of its bucket and lives as long as the next bucket, and
no bucket has more than its key may. -/
structure Counted (cfg : Config) (run : State × List Request) : Prop where
  missing : ∀ keyId b, run.1.store keyId b = none → inBucket cfg.windowSeconds keyId b run.2 = []
  counted : ∀ keyId b counter, run.1.store keyId b = some counter →
    counter.count = (inBucket cfg.windowSeconds keyId b run.2).length ∧
      (b + 2) * cfg.windowSeconds ≤ counter.expiresAt
  limited : ∀ keyId b,
    ((inBucket cfg.windowSeconds keyId b run.2).length : ℤ) ≤ cfg.limit keyId

theorem Counted.get (h : Counted cfg run) (hW : 0 < cfg.windowSeconds)
    (hb : bucketOf cfg.windowSeconds now < b + 2) :
    run.1.store.get now keyId b = (inBucket cfg.windowSeconds keyId b run.2).length := by
  unfold Store.get
  cases hstore : run.1.store keyId b with
  | none => rw [h.missing keyId b hstore, List.length_nil]
  | some counter =>
    obtain ⟨hcount, hexpires⟩ := h.counted keyId b counter hstore
    have hlt := (bucketOf_lt_iff hW).mp hb
    push_cast at hlt
    exact (if_pos (hlt.le.trans hexpires)).trans hcount

theorem Counted.init (hlimit : ∀ keyId, 0 < cfg.limit keyId) : Counted cfg (.init, []) where
  missing _ _ _ := rfl
  counted _ _ _ h := nomatch h
  limited keyId _ := (hlimit keyId).le

theorem inBucket_serve : inBucket W keyId b (serve cfg run r).2 =
    inBucket W keyId b run.2 ++ if (check cfg run.1 r).2.1 = true ∧ r.keyId = keyId ∧
      bucketOf W r.time = b then [r] else [] := by
  by_cases hallowed : (check cfg run.1 r).2.1 = true
  · rw [serve, if_pos hallowed, inBucket_concat]
    simp only [hallowed, true_and]
  · rw [serve, if_neg hallowed, if_neg fun h => hallowed h.1, List.append_nil]

section

variable {window : ℤ} (hlimit : ∀ keyId, 0 < cfg.limit keyId)
  (hwindow : 0 < window) (hW : cfg.windowSeconds = window)

theorem window_sub_luaMod (window : ℤ) (now : ℚ) :
    window - luaMod now window = (bucketOf window now + 1) * window - now := by
  rw [luaMod, bucketOf]
  ring

theorem left_pos (hwindow : 0 < window) (now : ℚ) :
    0 < (bucketOf window now + 1) * (window : ℚ) - now ∧
      (bucketOf window now + 1) * (window : ℚ) - now ≤ window := by
  have hpos : (0 : ℚ) < window := Int.cast_pos.mpr hwindow
  have hle := (bucketOf_le_iff hpos).mp (le_refl (bucketOf window now))
  have hlt := (bucketOf_lt_iff hpos).mp (Int.lt_add_one_of_le (le_refl (bucketOf window now)))
  push_cast at hlt
  constructor <;> linarith

include hlimit hwindow hW

theorem Counted.check (h : Counted cfg run) (hr : r.reply = .answers) :
    check cfg run.1 r =
      if (cfg.limit r.keyId : ℚ) ≤
          (inBucket window r.keyId (bucketOf window r.time - 1) run.2).length *
            (((bucketOf window r.time + 1) * window - r.time) / window) +
          (inBucket window r.keyId (bucketOf window r.time) run.2).length then
        (run.1, false, ⌊(bucketOf window r.time + 1) * (window : ℚ) - r.time⌋ + 1)
      else
        ({ run.1 with store := run.1.store.incr r.time window r.keyId (bucketOf window r.time) },
          true, 0) := by
  have hpos : (0 : ℚ) < window := Int.cast_pos.mpr hwindow
  have htoInt : toInt (window : ℚ) = window := by
    rw [toInt, if_pos hpos.le, Int.floor_intCast]
  rw [RateLimiter.check, if_neg (not_le.mpr (hlimit r.keyId)), hr]
  simp only [checkRedis, slidingWindow, hW, htoInt, window_sub_luaMod]
  rw [h.get (hW ▸ hpos) (by rw [hW]; omega), h.get (hW ▸ hpos) (by rw [hW]; omega), hW]
  simp only [hwindow.ne', ne_eq, not_false_eq_true, true_and]
  split_ifs <;> rfl

omit hlimit in
theorem Counted.incr (h : Counted cfg run) (now : ℚ) (keyId : String) :
    ∃ counter, run.1.store.incr now window keyId (bucketOf window now) =
        run.1.store.put keyId (bucketOf window now) (some counter) ∧
      counter.count = (inBucket window keyId (bucketOf window now) run.2).length + 1 ∧
      ((bucketOf window now : ℚ) + 2) * window ≤ counter.expiresAt := by
  have hpos : (0 : ℚ) < window := Int.cast_pos.mpr hwindow
  have hget : run.1.store.get now keyId (bucketOf window now) =
      (inBucket window keyId (bucketOf window now) run.2).length := by
    rw [h.get (hW ▸ hpos) (by rw [hW]; omega), hW]
  unfold Store.incr
  simp only [hget]
  split_ifs with hnew
  · have hle := (bucketOf_le_iff hpos).mp (le_refl (bucketOf window now))
    refine ⟨_, rfl, hnew.symm, ?_⟩
    push_cast
    linarith
  · omega
  · cases hstore : run.1.store keyId (bucketOf window now) with
    | none =>
      have hempty := h.missing keyId _ hstore
      rw [hW] at hempty
      rw [hempty] at hnew
      exact absurd rfl hnew
    | some counter =>
      obtain ⟨-, hexpires⟩ := h.counted keyId _ counter hstore
      rw [hW] at hexpires
      exact ⟨_, rfl, rfl, hexpires⟩

theorem Counted.room (h : Counted cfg run) (hr : r.reply = .answers)
    (hallowed : (RateLimiter.check cfg run.1 r).2.1 = true) :
    ((inBucket window r.keyId (bucketOf window r.time) run.2).length : ℤ) < cfg.limit r.keyId := by
  have hpos : (0 : ℚ) < window := Int.cast_pos.mpr hwindow
  rw [h.check hlimit hwindow hW hr] at hallowed
  split_ifs at hallowed with hfull
  have hweight : 0 ≤ ((bucketOf window r.time + 1) * window - r.time) / (window : ℚ) :=
    div_nonneg (left_pos hwindow r.time).1.le hpos.le
  have hprev := mul_nonneg (Nat.cast_nonneg
    (inBucket window r.keyId (bucketOf window r.time - 1) run.2).length) hweight
  have hlt : ((inBucket window r.keyId (bucketOf window r.time) run.2).length : ℚ) <
      cfg.limit r.keyId := by linarith
  exact_mod_cast hlt

theorem Counted.serve (h : Counted cfg run) (hr : r.reply = .answers) :
    Counted cfg (serve cfg run r) := by
  by_cases hallowed : (RateLimiter.check cfg run.1 r).2.1 = true
  · have hroom := h.room hlimit hwindow hW hr hallowed
    obtain ⟨counter, hput, hcount, hexpires⟩ := h.incr hwindow hW r.time r.keyId
    have hstore : (RateLimiter.serve cfg run r).1.store =
        run.1.store.put r.keyId (bucketOf window r.time) (some counter) := by
      rw [RateLimiter.serve]
      rw [h.check hlimit hwindow hW hr] at hallowed ⊢
      split_ifs at hallowed ⊢
      exact hput
    have hsame (keyId : String) (b : ℤ)
        (hother : ¬ (keyId = r.keyId ∧ b = bucketOf window r.time)) :
        (RateLimiter.serve cfg run r).1.store keyId b = run.1.store keyId b ∧
          inBucket window keyId b (RateLimiter.serve cfg run r).2 =
            inBucket window keyId b run.2 := by
      rw [hstore, inBucket_serve]
      refine ⟨if_neg hother, ?_⟩
      rw [if_neg fun hbucket => hother ⟨hbucket.2.1.symm, hbucket.2.2.symm⟩, List.append_nil]
    have hnew : (inBucket window r.keyId (bucketOf window r.time)
        (RateLimiter.serve cfg run r).2).length =
          (inBucket window r.keyId (bucketOf window r.time) run.2).length + 1 := by
      rw [inBucket_serve, if_pos ⟨hallowed, rfl, rfl⟩, List.length_append, List.length_singleton]
    constructor
    · intro keyId b hnone
      by_cases hother : keyId = r.keyId ∧ b = bucketOf window r.time
      · rw [hstore, Store.put, if_pos hother] at hnone
        cases hnone
      · rw [(hsame keyId b hother).1] at hnone
        have hempty := h.missing keyId b hnone
        rw [hW] at hempty ⊢
        rw [(hsame keyId b hother).2, hempty]
    · intro keyId b counter' hsome
      by_cases hother : keyId = r.keyId ∧ b = bucketOf window r.time
      · rw [hstore, Store.put, if_pos hother] at hsome
        obtain rfl := Option.some.inj hsome
        obtain ⟨rfl, rfl⟩ := hother
        rw [hW, hnew]
        exact ⟨hcount, hexpires⟩
      · rw [(hsame keyId b hother).1] at hsome
        have hold := h.counted keyId b counter' hsome
        rw [hW] at hold ⊢
        rwa [(hsame keyId b hother).2]
    · intro keyId b
      by_cases hother : keyId = r.keyId ∧ b = bucketOf window r.time
      · obtain ⟨rfl, rfl⟩ := hother
        rw [hW, hnew]
        push_cast
        omega
      · have hold := h.limited keyId b
        rw [hW] at hold ⊢
        rwa [(hsame keyId b hother).2]
  · have hkeep : RateLimiter.serve cfg run r = run := by
      rw [RateLimiter.serve, if_neg hallowed]
      rw [h.check hlimit hwindow hW hr] at hallowed ⊢
      split_ifs at hallowed ⊢
      · rfl
      · exact absurd rfl hallowed
    rwa [hkeep]

theorem counted_served {requests : List Request} (hall : ∀ r ∈ requests, r.reply = .answers) :
    Counted cfg (served cfg requests) := by
  induction requests using List.reverseRecOn with
  | nil => exact .init hlimit
  | append_singleton requests r ih =>
    rw [served_concat]
    exact (ih fun q hq => hall q (List.mem_append_left _ hq)).serve hlimit hwindow hW
      (hall r (List.mem_append_right _ (List.mem_singleton_self r)))

omit hlimit hW in
theorem inBucket_later {requests : List Request}
    (h : ∀ q ∈ requests, q.keyId = keyId → q.time ≤ now) (hb : bucketOf window now < b) :
    inBucket window keyId b requests = [] := by
  have hpos : (0 : ℚ) < window := Int.cast_pos.mpr hwindow
  refine List.filter_eq_nil_iff.mpr fun q hq hbucket => ?_
  obtain ⟨hkey, rfl⟩ := of_decide_eq_true hbucket
  have hle := (h q hq hkey).trans_lt ((bucketOf_lt_iff hpos).mp hb)
  exact absurd ((bucketOf_lt_iff hpos).mpr hle) (lt_irrefl _)

theorem promise_redis : Promise cfg {.answers} where
  bounded := by
    intro requests _ hall keyId start
    have hcounted := counted_served hlimit hwindow hW hall
    have hpos : 0 < cfg.windowSeconds := hW ▸ Int.cast_pos.mpr hwindow
    have hwithin := within_le_buckets hpos (accepted cfg requests) keyId start
    have hfirst := hcounted.limited keyId (bucketOf cfg.windowSeconds start)
    have hsecond := hcounted.limited keyId (bucketOf cfg.windowSeconds start + 1)
    unfold acceptedWithin
    rw [accepted] at hwithin ⊢
    omega
  retried := by
    intro earlier between r r' retryAfter horder hall hkey hbetween hanswer hwait
    have hpos : (0 : ℚ) < window := Int.cast_pos.mpr hwindow
    have hbefore : ∀ q ∈ earlier ++ r :: between, q.reply = .answers :=
      fun q hq => hall q (List.mem_append_left _ hq)
    have hr : r.reply = .answers := hbefore r (by simp)
    have hr' : r'.reply = .answers := hall r' (by simp)
    -- The wait leads into a later bucket.
    have hstart : (bucketOf window r.time + 1) * (window : ℚ) < r'.time := by
      have hcounted := counted_served hlimit hwindow hW
        fun q hq => hbefore q (List.mem_append_left _ hq)
      rw [answer, hcounted.check hlimit hwindow hW hr] at hanswer
      split_ifs at hanswer
      · obtain ⟨-, rfl⟩ := Prod.mk.inj hanswer
        have hfloor := Int.lt_floor_add_one ((bucketOf window r.time + 1) * (window : ℚ) - r.time)
        push_cast at hwait
        linarith
      · exact absurd (Prod.mk.inj hanswer).1 nofun
    have hlater : bucketOf window r.time < bucketOf window r'.time := by
      rw [← Int.add_one_le_iff, bucketOf_le_iff hpos]
      push_cast
      exact hstart.le
    have htimes : ∀ q ∈ (served cfg (earlier ++ r :: between)).2, q.keyId = r'.keyId →
        q.time ≤ r.time := fun q hq hq' =>
      time_le_of_mem horder hbetween (accepted_subset hq) (hq'.trans hkey)
    have hcounted := counted_served hlimit hwindow hW hbefore
    have hlimited := hcounted.limited r'.keyId (bucketOf window r'.time - 1)
    rw [hW] at hlimited
    have hpositive : (0 : ℚ) < cfg.limit r'.keyId := Int.cast_pos.mpr (hlimit r'.keyId)
    rw [answer, hcounted.check hlimit hwindow hW hr',
      inBucket_later hwindow htimes hlater, List.length_nil, if_neg]
    rw [not_le, Nat.cast_zero, add_zero]
    rcases (Int.add_one_le_iff.mpr hlater).lt_or_eq with hlt | heq
    · rw [inBucket_later hwindow htimes (by omega), List.length_nil, Nat.cast_zero, zero_mul]
      exact hpositive
    · have hweight : ((bucketOf window r'.time + 1) * window - r'.time) / (window : ℚ) < 1 := by
        rw [div_lt_one hpos, ← heq]
        push_cast
        linarith
      have hcount : ((inBucket window r'.keyId (bucketOf window r'.time - 1)
          (served cfg (earlier ++ r :: between)).2).length : ℚ) ≤ cfg.limit r'.keyId := by
        exact_mod_cast hlimited
      have hleft := div_nonneg (left_pos hwindow r'.time).1.le hpos.le
      nlinarith

end

/-! ## The log of request times -/

def timesOf (keyId : String) (requests : List Request) : List ℚ :=
  (requests.filter fun r => decide (r.keyId = keyId)).map Request.time

theorem timesOf_concat : timesOf keyId (requests ++ [r]) =
    timesOf keyId requests ++ if r.keyId = keyId then [r.time] else [] := by
  rw [timesOf, timesOf, List.filter_append, List.map_append, List.filter_singleton]
  by_cases hkey : r.keyId = keyId
  · simp [hkey]
  · simp [hkey]

/-- How many of the times lie in the window that ends at the given one. -/
def within (W : ℚ) (times : List ℚ) (now : ℚ) : List ℚ :=
  times.filter fun t => decide (now - W < t ∧ t ≤ now)

/-- Every request is past, the log has the accepted times of the current window, and no window has
more of them than the key may. -/
structure Logged (cfg : Config) (now : ℚ) (run : State × List Request) : Prop where
  past : ∀ r ∈ run.2, r.time ≤ now
  logged : ∀ keyId later, now ≤ later →
    (run.1.localWindows keyId).filter (fun t => decide (later - cfg.windowSeconds < t)) =
      within cfg.windowSeconds (timesOf keyId run.2) later
  limited : ∀ keyId later,
    ((within cfg.windowSeconds (timesOf keyId run.2) later).length : ℤ) ≤ cfg.limit keyId

theorem Logged.init (hlimit : ∀ keyId, 0 < cfg.limit keyId) (now : ℚ) :
    Logged cfg now (.init, []) where
  past := nofun
  logged _ _ _ := rfl
  limited keyId _ := (hlimit keyId).le

theorem Logged.mono {later : ℚ} (h : Logged cfg now run) (hle : now ≤ later) :
    Logged cfg later run where
  past r hr := (h.past r hr).trans hle
  logged keyId _ hlater := h.logged keyId _ (hle.trans hlater)
  limited := h.limited

theorem within_concat (W : ℚ) (times : List ℚ) (t later : ℚ) : within W (times ++ [t]) later =
    within W times later ++ if later - W < t ∧ t ≤ later then [t] else [] := by
  rw [within, within, List.filter_append, List.filter_singleton]
  simp

theorem filter_cutoff {times : List ℚ} {a b : ℚ} (h : a ≤ b) :
    (times.filter fun t => decide (a < t)).filter (fun t => decide (b < t)) =
      times.filter fun t => decide (b < t) := by
  rw [List.filter_filter]
  refine List.filter_congr fun t _ => ?_
  rw [← Bool.decide_and, decide_eq_decide]
  exact and_iff_left_of_imp fun hb => h.trans_lt hb

theorem Logged.timestamps (h : Logged cfg now run) (hle : now ≤ r.time) {later : ℚ}
    (hlater : r.time ≤ later) :
    ((run.1.localWindows r.keyId).filter fun t => decide (r.time - cfg.windowSeconds < t)).filter
        (fun t => decide (later - cfg.windowSeconds < t)) =
      within cfg.windowSeconds (timesOf r.keyId run.2) later := by
  rw [filter_cutoff (by linarith), h.logged r.keyId later (hle.trans hlater)]

theorem Logged.within_le (h : Logged cfg now run) (keyId : String) {later : ℚ}
    (hlater : now ≤ later) :
    (within cfg.windowSeconds (timesOf keyId run.2) later).length ≤
      (within cfg.windowSeconds (timesOf keyId run.2) now).length := by
  rw [within, within, ← List.countP_eq_length_filter, ← List.countP_eq_length_filter]
  refine List.countP_mono_left fun t ht hin => decide_eq_true ?_
  obtain ⟨q, hq, rfl⟩ := List.mem_map.mp ht
  obtain ⟨hstart, -⟩ := of_decide_eq_true hin
  exact ⟨by linarith, h.past q (List.mem_filter.mp hq).1⟩

theorem setWindow_self (s : State) (keyId : String) (timestamps : List ℚ) :
    (setWindow s keyId timestamps).localWindows keyId = timestamps := if_pos rfl

theorem setWindow_of_ne (s : State) {keyId keyId' : String} (timestamps : List ℚ)
    (hne : keyId' ≠ keyId) :
    (setWindow s keyId timestamps).localWindows keyId' = s.localWindows keyId' := if_neg hne

theorem Logged.accept (h : Logged cfg r.time run) (hroom : (((run.1.localWindows r.keyId).filter
      fun t => decide (r.time - cfg.windowSeconds < t)).length : ℤ) < cfg.limit r.keyId) :
    Logged cfg r.time (setWindow run.1 r.keyId ((run.1.localWindows r.keyId).filter
      (fun t => decide (r.time - cfg.windowSeconds < t)) ++ [r.time]), run.2 ++ [r]) := by
  have hother {keyId : String} (hne : keyId ≠ r.keyId) :
      timesOf keyId (run.2 ++ [r]) = timesOf keyId run.2 := by
    rw [timesOf_concat, if_neg hne.symm, List.append_nil]
  have hself : timesOf r.keyId (run.2 ++ [r]) = timesOf r.keyId run.2 ++ [r.time] := by
    rw [timesOf_concat, if_pos rfl]
  constructor
  · intro q hq
    rcases List.mem_append.mp hq with hq | hq
    · exact h.past q hq
    · exact (List.mem_singleton.mp hq ▸ le_refl r.time)
  · intro keyId later hlater
    by_cases hkey : keyId = r.keyId
    · subst hkey
      rw [setWindow_self, List.filter_append, h.timestamps le_rfl hlater, hself, within_concat,
        List.filter_singleton]
      simp [hlater]
    · rw [setWindow_of_ne _ _ hkey, hother hkey]
      exact h.logged keyId later hlater
  · intro keyId later
    by_cases hkey : keyId = r.keyId
    · subst hkey
      have hold := h.limited r.keyId later
      rw [hself, within_concat, List.length_append]
      split_ifs with hin
      · have hle := h.within_le r.keyId hin.2
        rw [h.logged r.keyId r.time le_rfl] at hroom
        rw [List.length_singleton]
        push_cast
        omega
      · simpa using hold
    · rw [hother hkey]
      exact h.limited keyId later

theorem Logged.reject (h : Logged cfg r.time run) :
    Logged cfg r.time (setWindow run.1 r.keyId ((run.1.localWindows r.keyId).filter
      (fun t => decide (r.time - cfg.windowSeconds < t))), run.2) where
  past := h.past
  logged := by
    intro keyId later hlater
    by_cases hkey : keyId = r.keyId
    · subst hkey
      rw [setWindow_self]
      exact h.timestamps le_rfl hlater
    · rw [setWindow_of_ne _ _ hkey]
      exact h.logged keyId later hlater
  limited := h.limited

theorem exists_after (requests : List Request) : ∃ now, ∀ r ∈ requests, r.time ≤ now := by
  induction requests with
  | nil => exact ⟨0, nofun⟩
  | cons q requests ih =>
    obtain ⟨now, hnow⟩ := ih
    refine ⟨max q.time now, fun r hr => ?_⟩
    rcases List.mem_cons.mp hr with rfl | hr
    · exact le_max_left _ _
    · exact (hnow r hr).trans (le_max_right _ _)

theorem within_le_ends (hW : 0 < W) (requests : List Request) (keyId : String) (start : ℚ) :
    (requests.filter fun r =>
      decide (r.keyId = keyId ∧ start ≤ r.time ∧ r.time ≤ start + W)).length ≤
    (within W (timesOf keyId requests) start).length +
      (within W (timesOf keyId requests) (start + W)).length := by
  rw [within, within, timesOf, List.filter_map, List.filter_map, List.length_map, List.length_map,
    List.filter_filter, List.filter_filter]
  apply length_filter_le_add
  intro r hr
  obtain ⟨hkey, hstart, hend⟩ := of_decide_eq_true hr
  simp only [Function.comp, Bool.and_eq_true, decide_eq_true_eq]
  rcases hstart.eq_or_lt with rfl | hlt
  · exact .inl ⟨⟨by linarith, le_rfl⟩, hkey⟩
  · exact .inr ⟨⟨by linarith, hend⟩, hkey⟩

section

variable (hlimit : ∀ keyId, 0 < cfg.limit keyId)

include hlimit

theorem check_local (s : State) (hr : r.reply ≠ .answers) :
    ∃ store, check cfg s r = checkLocal cfg { s with store := store } r := by
  rw [check, if_neg (not_le.mpr (hlimit r.keyId))]
  cases hreply : r.reply with
  | answers => exact absurd hreply hr
  | lost => exact ⟨_, rfl⟩
  | away => exact ⟨s.store, rfl⟩

theorem serve_fallback (run : State × List Request) (hr : r.reply ≠ .answers) : ∃ store,
    serve cfg run r =
      if cfg.limit r.keyId ≤ ((run.1.localWindows r.keyId).filter
          fun t => decide (r.time - cfg.windowSeconds < t)).length then
        (setWindow { run.1 with store := store } r.keyId ((run.1.localWindows r.keyId).filter
          fun t => decide (r.time - cfg.windowSeconds < t)), run.2)
      else
        (setWindow { run.1 with store := store } r.keyId ((run.1.localWindows r.keyId).filter
          (fun t => decide (r.time - cfg.windowSeconds < t)) ++ [r.time]), run.2 ++ [r]) := by
  obtain ⟨store, hcheck⟩ := check_local hlimit run.1 hr
  use store
  rw [serve, hcheck, checkLocal]
  by_cases hfull : cfg.limit r.keyId ≤ ((run.1.localWindows r.keyId).filter
      fun t => decide (r.time - cfg.windowSeconds < t)).length
  · simp [hfull]
  · simp [hfull]

omit hlimit in
theorem Logged.withStore (h : Logged cfg now run) (store : Store) :
    Logged cfg now ({ run.1 with store := store }, run.2) where
  past := h.past
  logged := h.logged
  limited := h.limited

theorem Logged.serve (h : Logged cfg now run) (hle : now ≤ r.time) (hr : r.reply ≠ .answers) :
    Logged cfg r.time (serve cfg run r) := by
  obtain ⟨store, hserve⟩ := serve_fallback hlimit run hr
  have hnow := (h.mono hle).withStore store
  rw [hserve]
  split_ifs with hfull
  · exact hnow.reject
  · exact hnow.accept (not_le.mp hfull)

theorem logged_served {requests : List Request} (horder : InOrder requests)
    (hall : ∀ r ∈ requests, r.reply ≠ .answers) (hnow : ∀ r ∈ requests, r.time ≤ now) :
    Logged cfg now (served cfg requests) := by
  induction requests using List.reverseRecOn generalizing now with
  | nil => exact .init hlimit now
  | append_singleton requests r ih =>
    obtain ⟨hfront, -, hlast⟩ := List.pairwise_append.mp horder
    have hbefore := ih hfront (fun q hq => hall q (List.mem_append_left _ hq))
      fun q hq => hlast q hq r (List.mem_singleton_self r)
    have hr : r ∈ requests ++ [r] := List.mem_append_right _ (List.mem_singleton_self r)
    rw [served_concat]
    exact (hbefore.serve hlimit le_rfl (hall r hr)).mono (hnow r hr)

theorem localWindows_served {requests : List Request} (hother : ∀ q ∈ between, q.keyId ≠ keyId)
    (hall : ∀ q ∈ between, q.reply ≠ .answers) :
    (served cfg (requests ++ between)).1.localWindows keyId =
      (served cfg requests).1.localWindows keyId := by
  induction between using List.reverseRecOn with
  | nil => rw [List.append_nil]
  | append_singleton between q ih =>
    have hkey := (hother q (List.mem_append_right _ (List.mem_singleton_self q))).symm
    obtain ⟨store, hserve⟩ := serve_fallback hlimit (served cfg (requests ++ between))
      (hall q (List.mem_append_right _ (List.mem_singleton_self q)))
    rw [← List.append_assoc, served_concat, hserve]
    have hsame := ih (fun q hq => hother q (List.mem_append_left _ hq))
      fun q hq => hall q (List.mem_append_left _ hq)
    split_ifs
    · exact (setWindow_of_ne _ _ hkey).trans hsame
    · exact (setWindow_of_ne _ _ hkey).trans hsame

theorem promise_fallback (hW : 0 < cfg.windowSeconds) {replies : Set Reply}
    (hnever : .answers ∉ replies) : Promise cfg replies where
  bounded := by
    intro requests horder hall keyId start
    obtain ⟨now, hnow⟩ := exists_after requests
    have hlogged := logged_served hlimit horder
      (fun r hr heq => hnever (heq ▸ hall r hr)) hnow
    have hends := within_le_ends hW (accepted cfg requests) keyId start
    have hfirst := hlogged.limited keyId start
    have hsecond := hlogged.limited keyId (start + cfg.windowSeconds)
    unfold acceptedWithin
    rw [accepted] at hends ⊢
    omega
  retried := by
    intro earlier between r r' retryAfter horder hall hkey hbetween hanswer hwait
    have hlocal : ∀ q ∈ earlier ++ r :: between ++ [r'], q.reply ≠ .answers :=
      fun q hq heq => hnever (heq ▸ hall q hq)
    have hbefore : Logged cfg r.time (served cfg earlier) := by
      rw [InOrder, List.append_assoc, List.pairwise_append] at horder
      apply logged_served hlimit horder.1 _ fun q hq => horder.2.2 q hq r List.mem_cons_self
      exact fun q hq => hlocal q (by simp [hq])
    have hlimited := hbefore.limited r.keyId r.time
    rw [← hbefore.logged r.keyId r.time le_rfl] at hlimited
    obtain ⟨_, hcheck⟩ := check_local hlimit (served cfg earlier).1 (hlocal r (by simp))
    obtain ⟨_, hcheck'⟩ := check_local hlimit (served cfg (earlier ++ [r] ++ between)).1
      (hlocal r' (by simp))
    obtain ⟨_, hserve⟩ := serve_fallback hlimit (served cfg earlier) (hlocal r (by simp))
    rw [answer, hcheck, checkLocal] at hanswer
    rw [List.append_cons, answer, hcheck', checkLocal, hkey,
      localWindows_served hlimit hbetween fun q hq => hlocal q (by simp [hq]), served_concat,
      hserve]
    have hall : ∀ t ∈ ((served cfg earlier).1.localWindows r.keyId).filter
        (fun t => decide (r.time - cfg.windowSeconds < t)), r.time - cfg.windowSeconds < t :=
      fun t ht => of_decide_eq_true (List.mem_filter.mp ht).2
    generalize ((served cfg earlier).1.localWindows r.keyId).filter
      (fun t => decide (r.time - cfg.windowSeconds < t)) = timestamps at hanswer hlimited hall ⊢
    split_ifs at hanswer with hfull
    swap
    · exact absurd (Prod.mk.inj hanswer).1 nofun
    obtain ⟨-, rfl⟩ := Prod.mk.inj hanswer
    obtain ⟨oldest, rest, rfl⟩ : ∃ oldest rest, timestamps = oldest :: rest := by
      refine List.exists_cons_of_ne_nil fun hnil => ?_
      rw [hnil] at hfull
      exact absurd hfull (not_le.mpr (hlimit r.keyId))
    -- The oldest of the log is out of the window when the request comes again.
    have hpassed : ¬ r'.time - cfg.windowSeconds < oldest := by
      have hinside := hall oldest List.mem_cons_self
      rw [List.headD_cons, toInt, if_pos (by linarith)] at hwait
      have hfloor := Int.lt_floor_add_one (cfg.windowSeconds - (r.time - oldest))
      push_cast at hwait
      rw [not_lt]
      linarith
    have hroom : (((oldest :: rest).filter fun t =>
        decide (r'.time - cfg.windowSeconds < t)).length : ℤ) < cfg.limit r.keyId := by
      rw [List.filter_cons_of_neg (by simpa using hpassed)]
      have := List.length_filter_le (fun t => decide (r'.time - cfg.windowSeconds < t)) rest
      rw [List.length_cons] at hlimited
      omega
    rw [if_pos hfull, setWindow_self, if_neg (not_le.mpr hroom)]

end

end

/-! ## Windows that are no whole number of seconds -/

section

variable {limit : String → ℤ} {W : ℚ} {replies : Set Reply}

theorem check_of_lt_one (hpos : 0 < W) (hone : W < 1) (s : State) (hr : r.reply = .answers) :
    (check ⟨limit, W⟩ s r).2.1 = true := by
  have htoInt : toInt W = 0 := by
    rw [toInt, if_pos hpos.le]
    exact Int.floor_eq_zero_iff.mpr ⟨hpos.le, hone⟩
  rw [check, hr]
  split_ifs
  · rfl
  · simp [checkRedis, slidingWindow, htoInt]

theorem accepted_eq_of_allowed {cfg : Config} {requests : List Request}
    (h : ∀ s, ∀ r ∈ requests, (check cfg s r).2.1 = true) : accepted cfg requests = requests := by
  induction requests using List.reverseRecOn with
  | nil => rfl
  | append_singleton requests r ih =>
    have hbefore := ih fun s q hq => h s q (List.mem_append_left _ hq)
    have hr := h (served cfg requests).1 r
      (List.mem_append_right _ (List.mem_singleton_self r))
    rw [accepted] at hbefore
    rw [accepted, served_concat, serve, if_pos hr, hbefore]

theorem not_promise_of_lt_one (hlimit : ∀ keyId, 0 < limit keyId) (hpos : 0 < W) (hone : W < 1)
    (hanswers : .answers ∈ replies) : ¬ Promise ⟨limit, W⟩ replies := by
  intro h
  have hbounded := h.bounded (List.replicate (2 * limit "" + 1).toNat ⟨"", 0, .answers⟩)
    (List.pairwise_replicate.mpr (.inr le_rfl))
    (fun r hr => by rwa [List.eq_of_mem_replicate hr]) "" 0
  rw [acceptedWithin, accepted_eq_of_allowed fun s r hr => check_of_lt_one hpos hone s
      (by rw [List.eq_of_mem_replicate hr]), List.filter_replicate,
    if_pos (by simpa using hpos.le), List.length_replicate] at hbounded
  have := hlimit ""
  simp only at hbounded
  omega

structure Burst (keyId : String) (expiresAt : ℚ) (count : ℕ) (s : State) : Prop where
  current : s.store keyId 0 = if count = 0 then none else some ⟨count, expiresAt⟩
  previous : s.store keyId (-1) = none

theorem Burst.check {keyId : String} {expiresAt now : ℚ} {count : ℕ} {s : State}
    (h : Burst keyId expiresAt count s) (hlimit : 0 < limit keyId) (hone : 1 ≤ W)
    (hbucket : bucketOf W now = 0) (hlive : now ≤ expiresAt) :
    RateLimiter.check ⟨limit, W⟩ s ⟨keyId, now, .answers⟩ =
      if limit keyId ≤ count then (s, false, ⌊⌊W⌋ - luaMod now ⌊W⌋⌋ + 1)
      else ({ s with store := s.store.incr now ⌊W⌋ keyId 0 }, true, 0) := by
  have htoInt : toInt W = ⌊W⌋ := if_pos (zero_le_one.trans hone)
  have hwindow : ⌊W⌋ ≠ 0 := by
    have := Int.le_floor.mpr (by exact_mod_cast hone : ((1 : ℤ) : ℚ) ≤ W)
    omega
  have hcurrent : s.store.get now keyId 0 = count := by
    rw [Store.get, h.current]
    split_ifs with hcount
    · exact hcount.symm
    · exact if_pos hlive
  have hprevious : s.store.get now keyId (-1) = 0 := by rw [Store.get, h.previous]
  rw [RateLimiter.check, if_neg (not_le.mpr hlimit)]
  simp only [checkRedis, slidingWindow, hbucket, htoInt, hcurrent, zero_sub, hprevious,
    Nat.cast_zero, zero_mul, zero_add, hwindow, ne_eq, not_false_eq_true, true_and]
  rw [if_congr (by exact_mod_cast Iff.rfl) rfl rfl]
  split_ifs <;> rfl

theorem Burst.incr {keyId : String} {now : ℚ} {count : ℕ} {s : State} {window : ℤ}
    (h : Burst keyId (now + window * 2) count s) (hwindow : 0 < window) :
    Burst keyId (now + window * 2) (count + 1)
      { s with store := s.store.incr now window keyId 0 } := by
  have hlive : now ≤ now + window * 2 := by
    have : (0 : ℚ) < window := Int.cast_pos.mpr hwindow
    linarith
  have hcurrent : s.store.get now keyId 0 = count := by
    rw [Store.get, h.current]
    split_ifs with hcount
    · exact hcount.symm
    · exact if_pos hlive
  constructor
  · simp only [Store.incr, hcurrent]
    by_cases hcount : count = 0
    · simp [hcount, Store.put, hwindow]
    · simp [hcount, Store.put, h.current]
  · have hother : ¬ (keyId = keyId ∧ (-1 : ℤ) = 0) := by omega
    simp only [Store.incr]
    split_ifs
    all_goals exact (if_neg hother).trans h.previous

theorem burst_served {keyId : String} {now : ℚ} (hlimit : 0 < limit keyId) (hone : 1 ≤ W)
    (hbucket : bucketOf W now = 0) {count : ℕ} (hcount : (count : ℤ) ≤ limit keyId) :
    Burst keyId (now + ⌊W⌋ * 2) count
      (served ⟨limit, W⟩ (List.replicate count ⟨keyId, now, .answers⟩)).1 := by
  have hwindow : 0 < ⌊W⌋ := Int.floor_pos.mpr hone
  have hlive : now ≤ now + ⌊W⌋ * 2 := by
    have : (0 : ℚ) < ⌊W⌋ := Int.cast_pos.mpr hwindow
    linarith
  induction count with
  | zero => exact ⟨rfl, rfl⟩
  | succ count ih =>
    have hbefore := ih (by push_cast at hcount; omega)
    rw [List.replicate_succ', served_concat, serve,
      hbefore.check hlimit hone hbucket hlive, if_neg (by push_cast at hcount; omega)]
    exact hbefore.incr hwindow

/-- The request that waits as long as it is told comes again in the same bucket. -/
theorem not_promise_of_fraction (hlimit : ∀ keyId, 0 < limit keyId) (hone : 1 ≤ W)
    (hfraction : (⌊W⌋ : ℚ) < W) (hanswers : .answers ∈ replies) :
    ¬ Promise ⟨limit, W⟩ replies := by
  intro h
  have hwindow : 0 < ⌊W⌋ := Int.floor_pos.mpr hone
  have hlt := Int.lt_floor_add_one W
  have hcast : (1 : ℚ) ≤ ⌊W⌋ := by exact_mod_cast hwindow
  obtain ⟨now, hnow⟩ : ∃ now, now = ⌊W⌋ - 1 + (W - ⌊W⌋) / 2 := ⟨_, rfl⟩
  have hbucket (time : ℚ) (hlow : 0 ≤ time) (hhigh : time < W) : bucketOf W time = 0 := by
    rw [bucketOf, Int.floor_eq_zero_iff]
    exact ⟨div_nonneg hlow (by linarith), (div_lt_one (by linarith)).mpr hhigh⟩
  have hfirst := hbucket now (by linarith) (by linarith)
  have hsecond := hbucket (now + 1) (by linarith) (by linarith)
  have hburst := burst_served (hlimit "") hone hfirst (Int.toNat_of_nonneg (hlimit "").le).le
  have hfull : limit "" ≤ ((limit "").toNat : ℤ) := Int.self_le_toNat _
  have hrejected := hburst.check (hlimit "") hone hfirst (by linarith)
  have hagain := hburst.check (hlimit "") hone hsecond (by linarith)
  rw [if_pos hfull] at hrejected hagain
  have hwait : ⌊(⌊W⌋ : ℚ) - luaMod now ⌊W⌋⌋ = 0 := by
    have hquotient : ⌊now / (⌊W⌋ : ℚ)⌋ = 0 := by
      rw [Int.floor_eq_zero_iff]
      exact ⟨div_nonneg (by linarith) (by linarith), (div_lt_one (by linarith)).mpr (by linarith)⟩
    rw [luaMod, hquotient, Int.floor_eq_zero_iff]
    constructor <;> push_cast <;> linarith
  obtain ⟨r, hr⟩ : ∃ r : Request, r = ⟨"", now, .answers⟩ := ⟨_, rfl⟩
  rw [← hr] at hburst hrejected hagain
  have horder : InOrder (List.replicate (limit "").toNat r ++ r :: [] ++
      [⟨"", now + 1, .answers⟩]) := by
    rw [InOrder, ← List.replicate_succ', List.pairwise_append]
    refine ⟨List.pairwise_replicate.mpr (.inr le_rfl), List.pairwise_singleton _ _, ?_⟩
    intro q hq q' hq'
    rw [List.eq_of_mem_replicate hq, List.mem_singleton.mp hq', hr]
    exact (lt_add_one now).le
  have hall : ∀ q ∈ List.replicate (limit "").toNat r ++ r :: [] ++
      [⟨"", now + 1, .answers⟩], q.reply ∈ replies := by
    intro q hq
    have hreply : q.reply = .answers := by
      rw [← List.replicate_succ', List.mem_append, List.mem_singleton] at hq
      rcases hq with hq | rfl
      · rw [List.eq_of_mem_replicate hq, hr]
      · rfl
    rwa [hreply]
  have haccepted := h.retried (List.replicate (limit "").toNat r) [] r
    ⟨"", now + 1, .answers⟩ 1 horder hall (by rw [hr]) nofun
    (by rw [answer, hrejected, hwait]; rfl) (by rw [hr]; simp)
  have hstate : (served ⟨limit, W⟩ (List.replicate (limit "").toNat r ++ [r])).1 =
      (served ⟨limit, W⟩ (List.replicate (limit "").toNat r)).1 := by
    rw [served_concat, serve, hrejected]
  rw [answer, hstate, hagain] at haccepted
  cases haccepted

theorem localWindows_check {cfg : Config} (s : State) {r : Request} (hr : r.reply = .answers) :
    (check cfg s r).1.localWindows = s.localWindows := by
  rw [check, hr]
  split_ifs
  · rfl
  · rfl

theorem localWindows_of_answers {cfg : Config} {requests : List Request}
    (hall : ∀ r ∈ requests, r.reply = .answers) (keyId : String) :
    (served cfg requests).1.localWindows keyId = [] := by
  induction requests using List.reverseRecOn with
  | nil => rfl
  | append_singleton requests r ih =>
    rw [served_concat, serve,
      localWindows_check _ (hall r (List.mem_append_right _ (List.mem_singleton_self r)))]
    exact ih fun q hq => hall q (List.mem_append_left _ hq)

theorem length_inBucket_replicate (W : ℚ) (b : ℤ) (n : ℕ) (r : Request) :
    (inBucket W r.keyId b (List.replicate n r)).length =
      if bucketOf W r.time = b then n else 0 := by
  rw [inBucket, List.filter_replicate]
  split_ifs <;> simp_all

section

variable {window : ℤ} (hlimit : ∀ keyId, 0 < limit keyId) (hwindow : 0 < window)

include hlimit hwindow

theorem accepted_burst {r : Request} (hr : r.reply = .answers) {n : ℕ}
    (hn : (n : ℤ) ≤ limit r.keyId) :
    accepted ⟨limit, window⟩ (List.replicate n r) = List.replicate n r := by
  induction n with
  | zero => rfl
  | succ n ih =>
    push_cast at hn
    have hbefore := ih (by omega)
    have hcounted : Counted ⟨limit, window⟩ (served ⟨limit, window⟩ (List.replicate n r)) := by
      apply counted_served hlimit hwindow rfl
      intro q hq
      rw [List.eq_of_mem_replicate hq, hr]
    have hroom : ¬ (limit r.keyId : ℚ) ≤ n := by
      rw [not_le]
      exact_mod_cast Int.lt_of_add_one_le hn
    have hcheck := hcounted.check hlimit hwindow rfl hr
    rw [accepted] at hbefore
    rw [hbefore, length_inBucket_replicate, length_inBucket_replicate,
      if_neg (by omega : ¬ bucketOf window r.time = bucketOf window r.time - 1),
      if_pos (rfl : bucketOf window r.time = _), Nat.cast_zero, zero_mul, zero_add,
      if_neg hroom] at hcheck
    rw [List.replicate_succ', accepted, served_concat, serve, hcheck, if_pos rfl, hbefore]

/-- Half a window into the next bucket the bucket before counts for half. -/
theorem accepted_next {r r' : Request} (hr : r.reply = .answers) (hr' : r'.reply = .answers)
    (hkey : r'.keyId = r.keyId) (htime : r.time = window / 2) (htime' : r'.time = r.time + window) :
    accepted ⟨limit, window⟩ (List.replicate (limit r.keyId).toNat r ++ [r']) =
      List.replicate (limit r.keyId).toNat r ++ [r'] := by
  have hpos : (0 : ℚ) < window := Int.cast_pos.mpr hwindow
  have htoNat : (((limit r.keyId).toNat : ℕ) : ℤ) = limit r.keyId :=
    Int.toNat_of_nonneg (hlimit r.keyId).le
  have hbefore := accepted_burst hlimit hwindow hr htoNat.le
  have hcounted : Counted ⟨limit, window⟩
      (served ⟨limit, window⟩ (List.replicate (limit r.keyId).toNat r)) := by
    apply counted_served hlimit hwindow rfl
    intro q hq
    rw [List.eq_of_mem_replicate hq, hr]
  have hfirst : bucketOf window r.time = 0 := by
    rw [bucketOf, Int.floor_eq_zero_iff, htime]
    exact ⟨by positivity, by rw [div_lt_one hpos]; linarith⟩
  have hsecond : bucketOf window r'.time = 1 := by
    have hsplit : r'.time / (window : ℚ) = r.time / window + 1 := by
      rw [htime', add_div, div_self hpos.ne']
    rw [bucketOf] at hfirst ⊢
    rw [hsplit, Int.floor_add_one, hfirst, zero_add]
  have hweight : (((1 : ℤ) + 1) * (window : ℚ) - r'.time) / window = 1 / 2 := by
    rw [htime', htime, div_eq_div_iff hpos.ne' two_ne_zero]
    push_cast
    ring
  have hroom : ¬ (limit r.keyId : ℚ) ≤ ((limit r.keyId).toNat : ℚ) * (1 / 2) + (0 : ℕ) := by
    have hcast : (((limit r.keyId).toNat : ℕ) : ℚ) = limit r.keyId := by exact_mod_cast htoNat
    have hlimitQ : (0 : ℚ) < limit r.keyId := Int.cast_pos.mpr (hlimit r.keyId)
    rw [hcast, not_le]
    push_cast
    linarith
  have hcheck := hcounted.check hlimit hwindow rfl hr'
  rw [accepted] at hbefore
  simp only [hbefore, hsecond, hkey, hweight, length_inBucket_replicate, hfirst, sub_self, if_true,
    zero_ne_one, if_false] at hcheck
  rw [if_neg hroom] at hcheck
  rw [accepted, served_concat, serve, hcheck, if_pos rfl, hbefore]

theorem accepted_fallback {requests : List Request} {q : Request} (hq : q.reply ≠ .answers)
    (hempty : (served ⟨limit, window⟩ requests).1.localWindows q.keyId = [])
    (hbefore : accepted ⟨limit, window⟩ requests = requests) {n : ℕ}
    (hn : (n : ℤ) ≤ limit q.keyId) :
    accepted ⟨limit, window⟩ (requests ++ List.replicate n q) = requests ++ List.replicate n q ∧
      (served ⟨limit, window⟩ (requests ++ List.replicate n q)).1.localWindows q.keyId =
        List.replicate n q.time := by
  induction n with
  | zero => exact ⟨by rwa [List.replicate_zero, List.append_nil], by simpa using hempty⟩
  | succ n ih =>
    push_cast at hn
    obtain ⟨haccepted, hlog⟩ := ih (by omega)
    have hlimit' : ∀ keyId, 0 < (⟨limit, window⟩ : Config).limit keyId := hlimit
    obtain ⟨store, hserve⟩ := serve_fallback hlimit'
      (served ⟨limit, window⟩ (requests ++ List.replicate n q)) hq
    have hkept : (List.replicate n q.time).filter (fun t => decide (q.time - (window : ℚ) < t)) =
        List.replicate n q.time := by
      rw [List.filter_eq_self]
      intro t ht
      rw [List.eq_of_mem_replicate ht, decide_eq_true_eq, sub_lt_self_iff]
      exact Int.cast_pos.mpr hwindow
    rw [hlog, hkept, List.length_replicate, if_neg (not_le.mpr (Int.lt_of_add_one_le hn))] at hserve
    rw [accepted] at haccepted
    rw [List.replicate_succ', ← List.append_assoc, accepted, served_concat, hserve]
    refine ⟨by rw [haccepted], ?_⟩
    rw [setWindow_self, List.replicate_succ']

/-- Where Redis answers some requests and others are left to the log, a window lets through what
both allow. -/
theorem accepted_mixed (r r' q : Request) (hr : r.reply = .answers) (hr' : r'.reply = .answers)
    (hq : q.reply ≠ .answers) (hkey : r'.keyId = r.keyId) (htime : r.time = window / 2)
    (htime' : r'.time = r.time + window) :
    accepted ⟨limit, window⟩ (List.replicate (limit r.keyId).toNat r ++ [r'] ++
        List.replicate (limit q.keyId).toNat q) =
      List.replicate (limit r.keyId).toNat r ++ [r'] ++
        List.replicate (limit q.keyId).toNat q := by
  have hanswered : ∀ p ∈ List.replicate (limit r.keyId).toNat r ++ [r'], p.reply = .answers := by
    intro p hp
    rcases List.mem_append.mp hp with hp | hp
    · rwa [List.eq_of_mem_replicate hp]
    · rwa [List.mem_singleton.mp hp]
  have hnext := accepted_next hlimit hwindow hr hr' hkey htime htime'
  have hempty : (served ⟨limit, window⟩ _).1.localWindows q.keyId = [] :=
    localWindows_of_answers hanswered q.keyId
  exact (accepted_fallback hlimit hwindow hq hempty hnext
    (Int.toNat_of_nonneg (hlimit q.keyId).le).le).1

theorem not_promise_of_mixed (hanswers : .answers ∈ replies) {reply : Reply}
    (hreply : reply ∈ replies) (hlocal : reply ≠ .answers) : ¬ Promise ⟨limit, window⟩ replies := by
  intro h
  have hpos : (0 : ℚ) < window := Int.cast_pos.mpr hwindow
  have haccepted := accepted_mixed hlimit hwindow ⟨"", window / 2, .answers⟩
    ⟨"", window / 2 + window, .answers⟩ ⟨"", window / 2 + window, reply⟩ rfl rfl hlocal rfl rfl rfl
  generalize hburst : List.replicate (limit "").toNat
    (⟨"", window / 2, .answers⟩ : Request) = burst at haccepted
  generalize hlog : List.replicate (limit "").toNat
    (⟨"", window / 2 + window, reply⟩ : Request) = log at haccepted
  have hmemBurst (p : Request) (hp : p ∈ burst) : p = ⟨"", window / 2, .answers⟩ :=
    List.eq_of_mem_replicate (hburst ▸ hp)
  have hmemLog (p : Request) (hp : p ∈ log) : p = ⟨"", window / 2 + window, reply⟩ :=
    List.eq_of_mem_replicate (hlog ▸ hp)
  have horder : InOrder (burst ++ [⟨"", window / 2 + window, .answers⟩] ++ log) := by
    rw [InOrder, List.pairwise_append, List.pairwise_append]
    refine ⟨⟨?_, List.pairwise_singleton _ _, ?_⟩, ?_, ?_⟩
    · exact hburst ▸ List.pairwise_replicate.mpr (.inr le_rfl)
    · intro p hp p' hp'
      rw [hmemBurst p hp, List.mem_singleton.mp hp']
      exact le_add_of_nonneg_right hpos.le
    · exact hlog ▸ List.pairwise_replicate.mpr (.inr le_rfl)
    · intro p hp p' hp'
      rw [hmemLog p' hp']
      rcases List.mem_append.mp hp with hp | hp
      · rw [hmemBurst p hp]
        exact le_add_of_nonneg_right hpos.le
      · rw [List.mem_singleton.mp hp]
  have hall : ∀ p ∈ burst ++ [⟨"", window / 2 + window, .answers⟩] ++ log, p.reply ∈ replies ∧
      p.keyId = "" ∧ (window : ℚ) / 2 ≤ p.time ∧ p.time ≤ (window : ℚ) / 2 + window := by
    intro p hp
    rcases List.mem_append.mp hp with hp | hp
    · rcases List.mem_append.mp hp with hp | hp
      · rw [hmemBurst p hp]
        exact ⟨hanswers, rfl, le_rfl, le_add_of_nonneg_right hpos.le⟩
      · rw [List.mem_singleton.mp hp]
        exact ⟨hanswers, rfl, le_add_of_nonneg_right hpos.le, le_rfl⟩
    · rw [hmemLog p hp]
      exact ⟨hreply, rfl, le_add_of_nonneg_right hpos.le, le_rfl⟩
  have hinside : ∀ p ∈ burst ++ [⟨"", window / 2 + window, .answers⟩] ++ log,
      decide (p.keyId = "" ∧ (window : ℚ) / 2 ≤ p.time ∧
        p.time ≤ (window : ℚ) / 2 + (window : ℚ)) = true :=
    fun p hp => decide_eq_true (hall p hp).2
  have hbounded := h.bounded _ horder (fun p hp => (hall p hp).1) "" (window / 2)
  rw [acceptedWithin, haccepted, List.filter_eq_self.mpr hinside, List.length_append,
    List.length_append, List.length_singleton, ← hburst, ← hlog, List.length_replicate,
    List.length_replicate] at hbounded
  have := hlimit ""
  push_cast at hbounded
  omega

end

end

end RateLimiter
