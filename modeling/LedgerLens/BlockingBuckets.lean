import LedgerLens.MeteredGrants
import Mathlib.Algebra.Order.Ring.Rat
import Mathlib.Data.List.Induction
import Mathlib.Data.Rat.Floor
import Mathlib.Tactic.FieldSimp
import Mathlib.Tactic.Positivity

/-!
# Token buckets that sleep

`TokenBucketRateLimiter` of `ingestion/http_client.py` and `_TokenBucket` of
`ingestion/evm_loader.py`: who finds no token sleeps under the lock until one is due, so that the
callers come one after the other. Times, rates and tokens are exact rationals.
-/
namespace BlockingBuckets

open MeteredGrants

/-- A caller that gets the lock so long after the one before it left, and that is woken so much
later than it asked for if it sleeps. -/
structure Caller where
  idle : ℚ≥0
  overslept : ℚ≥0

structure Run (Bucket : Type) where
  bucket : Bucket
  now : ℚ
  grants : List ℚ

variable {Bucket : Type}

def letThrough (acquire : Bucket → ℚ → ℚ≥0 → Bucket × ℚ) (r : Run Bucket) (c : Caller) :
    Run Bucket :=
  let (bucket, now) := acquire r.bucket (r.now + c.idle) c.overslept
  ⟨bucket, now, r.grants ++ [now]⟩

def run (acquire : Bucket → ℚ → ℚ≥0 → Bucket × ℚ) (start : Bucket) (callers : List Caller) :
    Run Bucket :=
  callers.foldl (letThrough acquire) ⟨start, 0, []⟩

theorem run_concat {acquire : Bucket → ℚ → ℚ≥0 → Bucket × ℚ} {start : Bucket}
    (callers : List Caller) (c : Caller) :
    run acquire start (callers ++ [c]) = letThrough acquire (run acquire start callers) c := by
  rw [run, List.foldl_append]
  rfl

theorem run_invariant {acquire : Bucket → ℚ → ℚ≥0 → Bucket × ℚ} {start : Bucket}
    {I : Run Bucket → Prop} (hstart : I ⟨start, 0, []⟩)
    (keep : ∀ r c, I r → I (letThrough acquire r c)) (callers : List Caller) :
    I (run acquire start callers) := by
  induction callers using List.reverseRecOn with
  | nil => exact hstart
  | append_singleton callers c ih =>
    rw [run_concat]
    exact keep _ _ ih

structure TokenBucketRateLimiter where
  rate : ℚ
  capacity : ℚ
  tokens : ℚ
  lastRefill : ℚ

/-- A `ValueError` where the rate is not positive, or the burst is less than the rate. -/
def TokenBucketRateLimiter.init (rate : ℚ) (burst : Option ℚ) (now : ℚ) :
    Option TokenBucketRateLimiter :=
  let capacity := burst.getD (rate * 2)
  if rate ≤ 0 ∨ capacity < rate then none else some ⟨rate, capacity, capacity, now⟩

namespace TokenBucketRateLimiter

def refill (b : TokenBucketRateLimiter) (now : ℚ) : TokenBucketRateLimiter :=
  { b with
    tokens := min b.capacity (b.tokens + (now - b.lastRefill) * b.rate)
    lastRefill := now }

def acquire (b : TokenBucketRateLimiter) (now : ℚ) (overslept : ℚ≥0) :
    TokenBucketRateLimiter × ℚ :=
  let b := b.refill now
  if b.tokens < 1 then
    let woken := now + (1 - b.tokens) / b.rate + overslept
    let b := { b with tokens := 0 }.refill woken
    ({ b with tokens := b.tokens - 1 }, woken)
  else ({ b with tokens := b.tokens - 1 }, now)

end TokenBucketRateLimiter

structure EvmTokenBucket where
  rate : ℚ
  tokens : ℚ
  last : ℚ

def EvmTokenBucket.init (rate now : ℚ) : EvmTokenBucket := ⟨rate, rate, now⟩

/-- The time of the sleep stays before `_last`, so that the next caller is credited with it. -/
def EvmTokenBucket.acquire (b : EvmTokenBucket) (now : ℚ) (overslept : ℚ≥0) :
    EvmTokenBucket × ℚ :=
  let tokens := min b.rate (b.tokens + (now - b.last) * b.rate)
  if 1 ≤ tokens then (⟨b.rate, tokens - 1, now⟩, now)
  else (⟨b.rate, 0, now⟩, now + (1 - tokens) / b.rate + overslept)

section

variable {rate capacity : ℚ} {r : Run TokenBucketRateLimiter}

/-- The level is what the bucket has, and nothing where it owes. -/
structure Kept (rate capacity : ℚ) (r : Run TokenBucketRateLimiter) : Prop where
  sameRate : r.bucket.rate = rate
  sameCapacity : r.bucket.capacity = capacity
  refilled : r.bucket.lastRefill = r.now
  owed : -1 ≤ r.bucket.tokens
  metered : Metered (max capacity 1) rate (max r.bucket.tokens 0) r.now r.grants

theorem Kept.start (hrate : 0 < rate) (hcapacity : rate ≤ capacity) :
    Kept rate capacity ⟨⟨rate, capacity, capacity, 0⟩, 0, []⟩ where
  sameRate := rfl
  sameCapacity := rfl
  refilled := rfl
  owed := by linarith
  metered := .start (max_le_max_left capacity zero_le_one) (zero_le_one.trans (le_max_right _ _))
    hrate.le

theorem Kept.idle (h : Kept rate capacity r) (hrate : 0 < rate) (hcapacity : rate ≤ capacity)
    (idle : ℚ≥0) :
    -1 ≤ min capacity (r.bucket.tokens + idle * rate) ∧
      Metered (max capacity 1) rate (max (min capacity (r.bucket.tokens + idle * rate)) 0)
        (r.now + idle) r.grants := by
  have hidle : 0 ≤ (idle : ℚ) * rate := mul_nonneg idle.coe_nonneg hrate.le
  constructor
  · exact le_min (by linarith) (by linarith [h.owed])
  · apply h.metered.refill (le_add_of_nonneg_right idle.coe_nonneg) hrate.le
    · exact max_le_max (min_le_left _ _) zero_le_one
    · rw [add_sub_cancel_left, mul_comm rate]
      apply max_le
      · linarith [min_le_right capacity (r.bucket.tokens + idle * rate),
          le_max_left r.bucket.tokens 0]
      · linarith [le_max_right r.bucket.tokens 0]

theorem Kept.slept {v now : ℚ} {grants : List ℚ} (hrate : 0 < rate)
    (h : Metered (max capacity 1) rate (max v 0) now grants) (hsleep : v < 1)
    (overslept : ℚ≥0) :
    Metered (max capacity 1) rate
      (max (min capacity (((1 - v) / rate + overslept) * rate) - 1) 0)
      (now + (1 - v) / rate + overslept)
      (grants ++ [now + (1 - v) / rate + overslept]) := by
  have hwait : 0 ≤ (1 - v) / rate := div_nonneg (by linarith) hrate.le
  have hlate : 0 ≤ (overslept : ℚ) := overslept.coe_nonneg
  have hyield : ((1 - v) / rate + overslept) * rate = 1 - v + overslept * rate := by
    rw [add_mul, div_mul_cancel₀ _ hrate.ne']
  have hextra : 0 ≤ overslept * rate := mul_nonneg hlate hrate.le
  have hdue : Metered (max capacity 1) rate (max (min capacity (1 - v + overslept * rate)) 1)
      (now + (1 - v) / rate + overslept) grants := by
    apply h.refill (by linarith) hrate.le
    · exact max_le_max (min_le_left _ _) le_rfl
    · have hrise : rate * (now + (1 - v) / rate + overslept - now) =
          ((1 - v) / rate + overslept) * rate := by ring
      rw [hrise, hyield]
      apply max_le
      · linarith [min_le_right capacity (1 - v + overslept * rate), le_max_right v 0]
      · linarith [le_max_left v 0]
  rw [hyield]
  apply hdue.grant hrate.le ?_ (le_max_right _ _)
  rw [max_add, sub_add_cancel, zero_add]

theorem Kept.acquire (h : Kept rate capacity r) (idle overslept : ℚ≥0) :
    r.bucket.acquire (r.now + idle) overslept =
      let found := min capacity (r.bucket.tokens + idle * rate)
      let woken := r.now + idle + (1 - found) / rate + overslept
      if found < 1 then
        (⟨rate, capacity, min capacity (((1 - found) / rate + overslept) * rate) - 1, woken⟩,
          woken)
      else (⟨rate, capacity, found - 1, r.now + idle⟩, r.now + idle) := by
  have hslept (x : ℚ) : r.now + idle + x + overslept - (r.now + idle) = x + overslept := by ring
  simp only [TokenBucketRateLimiter.acquire, TokenBucketRateLimiter.refill, h.sameRate,
    h.sameCapacity, h.refilled, add_sub_cancel_left, hslept, zero_add]

theorem Kept.next (h : Kept rate capacity r) (hrate : 0 < rate) (hcapacity : rate ≤ capacity)
    (c : Caller) : Kept rate capacity (letThrough TokenBucketRateLimiter.acquire r c) := by
  obtain ⟨howed, hidle⟩ := h.idle hrate hcapacity c.idle
  unfold letThrough
  rw [h.acquire]
  dsimp only
  split_ifs with hsleep
  · have hwait := add_nonneg (div_nonneg (sub_nonneg.mpr hsleep.le) hrate.le)
      c.overslept.coe_nonneg
    have hyield := le_min (hrate.le.trans hcapacity) (mul_nonneg hwait hrate.le)
    exact ⟨rfl, rfl, rfl, by simp only; linarith, Kept.slept hrate hidle hsleep c.overslept⟩
  · have henough := not_lt.mp hsleep
    rw [max_eq_left (zero_le_one.trans henough)] at hidle
    have hleft := sub_nonneg.mpr henough
    refine ⟨rfl, rfl, rfl, by simp only; linarith, ?_⟩
    simp only [max_eq_left hleft]
    exact hidle.grant hrate.le (sub_add_cancel _ _).le hleft

theorem Kept.returns (h : Kept rate capacity r) (hrate : 0 < rate) (hcapacity : rate ≤ capacity)
    (idle overslept : ℚ≥0) :
    (r.bucket.acquire (r.now + idle) overslept).2 ≤ r.now + idle + 2 / rate + overslept := by
  have howed := (h.idle hrate hcapacity idle).1
  have hlate : 0 ≤ (overslept : ℚ) := overslept.coe_nonneg
  have htwo : 0 ≤ 2 / rate := div_nonneg zero_le_two hrate.le
  rw [h.acquire]
  dsimp only
  split_ifs
  · have hshort : (1 - min capacity (r.bucket.tokens + idle * rate)) / rate ≤ 2 / rate := by
      rw [div_le_div_iff_of_pos_right hrate]
      linarith
    dsimp only
    linarith
  · dsimp only
    linarith

end

/-- The limiter of the HTTP client: over no window more tokens than the burst, or one, and what the
rate yields, and no caller sleeps longer than two tokens take once it has the lock. -/
theorem http_throttles {rate : ℚ} {burst : Option ℚ} {b : TokenBucketRateLimiter}
    (hinit : TokenBucketRateLimiter.init rate burst 0 = some b) (callers : List Caller) :
    (∀ first last, first ≤ last →
      (within (run TokenBucketRateLimiter.acquire b callers).grants first last : ℚ) ≤
        max (burst.getD (rate * 2)) 1 + rate * (last - first)) ∧
    ∀ c : Caller, (letThrough TokenBucketRateLimiter.acquire
      (run TokenBucketRateLimiter.acquire b callers) c).now ≤
        (run TokenBucketRateLimiter.acquire b callers).now + c.idle + 2 / rate + c.overslept := by
  unfold TokenBucketRateLimiter.init at hinit
  dsimp only at hinit
  split_ifs at hinit with hvalid
  obtain ⟨hrate, hcapacity⟩ := not_or.mp hvalid
  cases hinit
  have hkept := run_invariant (I := Kept rate (burst.getD (rate * 2)))
    (.start (not_le.mp hrate) (not_lt.mp hcapacity))
    (fun r c h => h.next (not_le.mp hrate) (not_lt.mp hcapacity) c) callers
  exact ⟨fun _ _ hle => hkept.metered.within _ _ hle,
    fun c => hkept.returns (not_le.mp hrate) (not_lt.mp hcapacity) c.idle c.overslept⟩

theorem http_throttles_once :
    (∀ first last, first ≤ last →
      (within (run TokenBucketRateLimiter.acquire ⟨5, 10, 10, 0⟩ [⟨0, 0⟩]).grants first last : ℚ) ≤
        max (Option.getD none (5 * 2)) 1 + 5 * (last - first)) ∧
    ∀ c : Caller, (letThrough TokenBucketRateLimiter.acquire
      (run TokenBucketRateLimiter.acquire ⟨5, 10, 10, 0⟩ [⟨0, 0⟩]) c).now ≤
        (run TokenBucketRateLimiter.acquire ⟨5, 10, 10, 0⟩ [⟨0, 0⟩]).now + c.idle + 2 / 5 +
          c.overslept :=
  http_throttles (by norm_num [TokenBucketRateLimiter.init]) [⟨0, 0⟩]

section

variable {rate : ℚ} {r : Run EvmTokenBucket}

def credit (rate : ℚ) (r : Run EvmTokenBucket) : ℚ :=
  min rate (r.bucket.tokens + (r.now - r.bucket.last) * rate)

/-- The slept time counts twice, and the rate with it. -/
structure Credited (rate : ℚ) (r : Run EvmTokenBucket) : Prop where
  sameRate : r.bucket.rate = rate
  nonneg : 0 ≤ r.bucket.tokens
  past : r.bucket.last ≤ r.now
  metered : Metered (rate + 1) (2 * rate) (credit rate r) r.now r.grants

theorem Credited.start (hrate : 0 < rate) :
    Credited rate ⟨EvmTokenBucket.init rate 0, 0, []⟩ where
  sameRate := rfl
  nonneg := hrate.le
  past := le_rfl
  metered := .start ((min_le_left _ _).trans (by linarith)) (by linarith) (by linarith)

theorem Credited.acquire (h : Credited rate r) (idle overslept : ℚ≥0) :
    r.bucket.acquire (r.now + idle) overslept =
      let found := min rate (r.bucket.tokens + (r.now + idle - r.bucket.last) * rate)
      if 1 ≤ found then (⟨rate, found - 1, r.now + idle⟩, r.now + idle)
      else (⟨rate, 0, r.now + idle⟩, r.now + idle + (1 - found) / rate + overslept) := by
  simp only [EvmTokenBucket.acquire, h.sameRate]

theorem Credited.idle (h : Credited rate r) (hrate : 0 < rate) (idle : ℚ≥0) :
    0 ≤ min rate (r.bucket.tokens + (r.now + idle - r.bucket.last) * rate) ∧
      Metered (rate + 1) (2 * rate)
        (min rate (r.bucket.tokens + (r.now + idle - r.bucket.last) * rate)) (r.now + idle)
        r.grants := by
  have hidle : 0 ≤ (idle : ℚ) := idle.coe_nonneg
  have hyield : 0 ≤ idle * rate := mul_nonneg hidle hrate.le
  have hslept : 0 ≤ (r.now - r.bucket.last) * rate :=
    mul_nonneg (sub_nonneg.mpr h.past) hrate.le
  have hsplit : (r.now + idle - r.bucket.last) * rate =
      (r.now - r.bucket.last) * rate + idle * rate := by ring
  have hnonneg := h.nonneg
  rw [hsplit]
  constructor
  · exact le_min hrate.le (by linarith)
  · apply h.metered.refill (le_add_of_nonneg_right hidle) (by linarith)
    · exact (min_le_left _ _).trans (by linarith)
    · rw [add_sub_cancel_left, credit]
      rcases min_choice rate (r.bucket.tokens + (r.now - r.bucket.last) * rate) with hmin | hmin
      · rw [hmin]
        exact (min_le_left _ _).trans (by linarith)
      · rw [hmin]
        exact (min_le_right _ _).trans (by linarith)

theorem Credited.slept {v now : ℚ} {grants : List ℚ} (hrate : 0 < rate)
    (h : Metered (rate + 1) (2 * rate) v now grants) (hsleep : v < 1) (overslept : ℚ≥0) :
    Metered (rate + 1) (2 * rate) (min rate (((1 - v) / rate + overslept) * rate))
      (now + (1 - v) / rate + overslept) (grants ++ [now + (1 - v) / rate + overslept]) := by
  have hwait : 0 ≤ (1 - v) / rate := div_nonneg (by linarith) hrate.le
  have hlate : 0 ≤ (overslept : ℚ) := overslept.coe_nonneg
  have hyield : ((1 - v) / rate + overslept) * rate = 1 - v + overslept * rate := by
    rw [add_mul, div_mul_cancel₀ _ hrate.ne']
  have hextra : 0 ≤ overslept * rate := mul_nonneg hlate hrate.le
  have hdue : Metered (rate + 1) (2 * rate) (min rate (1 - v + overslept * rate) + 1)
      (now + (1 - v) / rate + overslept) grants := by
    apply h.refill (by linarith) (by linarith)
    · exact add_le_add_left (min_le_left _ _) 1
    · have hrise : 2 * rate * (now + (1 - v) / rate + overslept - now) =
          2 * (((1 - v) / rate + overslept) * rate) := by ring
      rw [hrise, hyield]
      linarith [min_le_right rate (1 - v + overslept * rate)]
  rw [hyield]
  exact hdue.grant (by linarith) le_rfl (le_min hrate.le (by linarith))

theorem Credited.next (h : Credited rate r) (hrate : 0 < rate) (c : Caller) :
    Credited rate (letThrough EvmTokenBucket.acquire r c) := by
  obtain ⟨hnonneg, hidle⟩ := h.idle hrate c.idle
  unfold letThrough
  rw [h.acquire]
  dsimp only
  split_ifs with henough
  · have hleft := sub_nonneg.mpr henough
    refine ⟨rfl, hleft, le_rfl, ?_⟩
    rw [credit, sub_self, zero_mul, add_zero, min_eq_right]
    · exact hidle.grant (by linarith) (sub_add_cancel _ _).le hleft
    · exact (sub_le_self _ zero_le_one).trans (min_le_left _ _)
  · have hsleep := not_le.mp henough
    have hslept := Credited.slept hrate hidle hsleep c.overslept
    have hwait := div_nonneg (sub_nonneg.mpr hsleep.le) hrate.le
    have hlate : 0 ≤ (c.overslept : ℚ) := c.overslept.coe_nonneg
    refine ⟨rfl, le_rfl, by simp only; linarith, ?_⟩
    have hcredit (wait : ℚ) : r.now + c.idle + wait + c.overslept - (r.now + c.idle) =
        wait + c.overslept := by ring
    simp only [credit, hcredit, zero_add]
    exact hslept

def atOnce (count : ℕ) : List Caller := List.replicate count ⟨0, 0⟩

/-- What a caller that is always there has got is what the double rate yields. -/
structure Drained (rate : ℚ) (count : ℕ) (r : Run EvmTokenBucket) : Prop where
  credited : Credited rate r
  balance : count + credit rate r = rate + 2 * rate * r.now
  started : credit rate r ≤ 1 ∨ r.now = 0

theorem Credited.admitted (h : Credited rate r) (hrate : 1 ≤ rate) :
    (1 ≤ credit rate r ∧ (letThrough EvmTokenBucket.acquire r ⟨0, 0⟩).now = r.now ∧
      credit rate (letThrough EvmTokenBucket.acquire r ⟨0, 0⟩) = credit rate r - 1) ∨
    (credit rate r < 1 ∧
      (letThrough EvmTokenBucket.acquire r ⟨0, 0⟩).now = r.now + (1 - credit rate r) / rate ∧
      credit rate (letThrough EvmTokenBucket.acquire r ⟨0, 0⟩) = 1 - credit rate r) := by
  have hpos : 0 < rate := by linarith
  have hnext := h.acquire 0 0
  have hnonneg := (h.idle hpos 0).1
  have hfound : min rate (r.bucket.tokens + (r.now + (0 : ℚ≥0) - r.bucket.last) * rate) =
      credit rate r := by
    rw [NNRat.cast_zero, add_zero, credit]
  rw [hfound] at hnext hnonneg
  dsimp only at hnext
  split_ifs at hnext with henough
  · refine .inl ⟨henough, ?_, ?_⟩
    · rw [letThrough, hnext, NNRat.cast_zero, add_zero]
    · rw [letThrough, hnext, credit, sub_self, zero_mul, add_zero, min_eq_right]
      exact (sub_le_self _ zero_le_one).trans (min_le_left _ _)
  · have hsleep := not_le.mp henough
    refine .inr ⟨hsleep, ?_, ?_⟩
    · rw [letThrough, hnext, NNRat.cast_zero, add_zero, add_zero]
    · have hyield : (1 - credit rate r) / rate * rate = 1 - credit rate r :=
        div_mul_cancel₀ _ hpos.ne'
      rw [letThrough, hnext, credit]
      simp only [NNRat.cast_zero, add_zero, add_sub_cancel_left, zero_add, hyield]
      exact min_eq_right (by linarith)

theorem Drained.next {count : ℕ} (h : Drained rate count r) (hrate : 1 ≤ rate) :
    Drained rate (count + 1) (letThrough EvmTokenBucket.acquire r ⟨0, 0⟩) := by
  have hpos : 0 < rate := by linarith
  have hnonneg : 0 ≤ credit rate r := by
    have := (h.credited.idle hpos 0).1
    rwa [NNRat.cast_zero, add_zero] at this
  have hbalance := h.balance
  refine ⟨h.credited.next hpos ⟨0, 0⟩, ?_, ?_⟩
  · rcases h.credited.admitted hrate with ⟨-, hnow, hcredit⟩ | ⟨-, hnow, hcredit⟩
    · rw [hnow, hcredit]
      push_cast
      linarith
    · have hdouble : 2 * rate * (r.now + (1 - credit rate r) / rate) =
          2 * rate * r.now + 2 * (1 - credit rate r) := by
        field_simp
      rw [hnow, hcredit, hdouble]
      push_cast
      linarith
  · rcases h.credited.admitted hrate with ⟨-, hnow, hcredit⟩ | ⟨-, -, hcredit⟩
    · rw [hnow, hcredit]
      exact h.started.imp_left fun hone => by linarith
    · exact .inl (by rw [hcredit]; linarith)

theorem drained_atOnce (hrate : 1 ≤ rate) (count : ℕ) :
    Drained rate count
      (run EvmTokenBucket.acquire (EvmTokenBucket.init rate 0) (atOnce count)) := by
  have hpos : 0 < rate := by linarith
  induction count with
  | zero => exact {
      credited := .start hpos
      balance := by simp [run, atOnce, credit, EvmTokenBucket.init]
      started := .inr rfl }
  | succ count ih =>
    rw [atOnce, List.replicate_succ', run_concat]
    exact ih.next hrate

end

/-- The bucket of the EVM loader at a rate of a token a second or more: over no window more tokens
than the rate, one more, and what twice the rate yields, and a caller that is always there does get
twice the rate, up to a token. -/
theorem evm_throttles {rate : ℚ} (hrate : 1 ≤ rate) :
    (∀ callers first last, first ≤ last →
      (within (run EvmTokenBucket.acquire (EvmTokenBucket.init rate 0) callers).grants
        first last : ℚ) ≤ rate + 1 + 2 * rate * (last - first)) ∧
    ∀ count : ℕ, rate ≤ count →
      count - rate ≤ 2 * rate *
        (run EvmTokenBucket.acquire (EvmTokenBucket.init rate 0) (atOnce count)).now ∧
      2 * rate * (run EvmTokenBucket.acquire (EvmTokenBucket.init rate 0) (atOnce count)).now ≤
        count - rate + 1 := by
  have hpos : 0 < rate := by linarith
  constructor
  · intro callers first last hle
    have hcredited := run_invariant (I := Credited rate) (.start hpos)
      (fun r c h => h.next hpos c) callers
    exact hcredited.metered.within first last hle
  · intro count hcount
    have hdrained := drained_atOnce hrate count
    have hbalance := hdrained.balance
    have hnonneg := (hdrained.credited.idle hpos 0).1
    rw [NNRat.cast_zero, add_zero, ← credit] at hnonneg
    constructor
    · linarith
    · rcases hdrained.started with hone | hzero
      · linarith
      · rw [hzero]
        linarith

theorem evm_throttles_ten :
    (∀ callers first last, first ≤ last →
      (within (run EvmTokenBucket.acquire (EvmTokenBucket.init 10 0) callers).grants
        first last : ℚ) ≤ 10 + 1 + 2 * 10 * (last - first)) ∧
    ∀ count : ℕ, (10 : ℚ) ≤ count →
      (count : ℚ) - 10 ≤ 2 * 10 *
        (run EvmTokenBucket.acquire (EvmTokenBucket.init 10 0) (atOnce count)).now ∧
      2 * 10 * (run EvmTokenBucket.acquire (EvmTokenBucket.init 10 0) (atOnce count)).now ≤
        (count : ℚ) - 10 + 1 :=
  evm_throttles (by norm_num)

end BlockingBuckets
