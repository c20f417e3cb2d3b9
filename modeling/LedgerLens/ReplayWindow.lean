import LedgerLens.EventDedup
import Mathlib.Tactic.Linarith

/-!
# The replay window and the TTL

A key that has expired is new again, unless the event is too old by then. The check of its age and
the look at the store are two readings of the clock.
-/
namespace EventDedup

open LabelledRuns

variable {R : ℚ}

/-- The default TTL outlasts the window by half a day, less what `int` cuts off. -/
theorem half_day_lt_ttl (hR : 0 < R) : 43199 < truncate (resolveDedupTtl R) - R := by
  have hbase : resolveDedupTtl R = max (R * 2) 86400 := by
    rw [resolveDedupTtl, if_pos hR]
    rfl
  have hlong : R + 43200 ≤ resolveDedupTtl R := by
    rw [hbase]
    rcases le_total R 43200 with hshort | hlarge
    · exact le_max_of_le_right (by linarith)
    · exact le_max_of_le_left (by linarith)
  have hpos : 0 ≤ resolveDedupTtl R := by linarith
  have hfloor := Int.lt_floor_add_one (resolveDedupTtl R)
  rw [truncate, if_pos hpos]
  linarith

namespace Instances

variable {ι : Type*} [DecidableEq ι] {server : RedisServer} {s t : Instances ι server}
  {c : Call ι} {cs : List (Call ι)} {key : Key} {T expiry : ℚ} {i : ι}

def results (s : Instances ι server) : List (Call ι) → List (Call ι × DedupResult)
  | [] => []
  | c :: cs => (c, s.result c) :: results (s.next c) cs

def timesNew (s : Instances ι server) (key : Key) (cs : List (Call ι)) : ℕ :=
  (s.results cs).countP fun answer => answer.1.key = key ∧ answer.2 = .new

/-- Every call of the sequence meets `P` in the state that it finds. -/
def Throughout (P : Instances ι server → Call ι → Prop) (s : Instances ι server) :
    List (Call ι) → Prop
  | [] => True
  | c :: cs => P s c ∧ Throughout P (s.next c) cs

/-- The replay window is `R`, and the TTL has its default size. -/
def DefaultTtl (R : ℚ) (s : Instances ι server) : Prop :=
  ∀ i, (s.stores i).replayWindowSeconds = R ∧ (s.stores i).ttlSeconds = resolveDedupTtl R

/-- One clock, which does not run back: the last reading of a call is that of the fallback. -/
structure OneClock (cs : List (Call ι)) : Prop where
  asked : ∀ c ∈ cs, ∀ time ∈ c.readings.exchange.time,
    c.readings.replayNow ≤ time ∧ time ≤ c.readings.fallbackNow
  looked : ∀ c ∈ cs, c.readings.replayNow ≤ c.readings.fallbackNow
  ordered : cs.Pairwise fun c d => c.readings.fallbackNow ≤ d.readings.replayNow

def OneEvent (key : Key) (T : ℚ) (cs : List (Call ι)) : Prop :=
  ∀ c ∈ cs, c.key = key → c.timestamp = some T ∧ T ≤ c.readings.replayNow

/-- A call for the key looks at the store less than `span` after it looked at the event's age. -/
def Prompt (key : Key) (span : ℚ) (cs : List (Call ι)) : Prop :=
  ∀ c ∈ cs, c.key = key → c.readings.fallbackNow - c.readings.replayNow < span

structure Watched (R : ℚ) (key : Key) (T : ℚ) (s : Instances ι server) (cs : List (Call ι)) :
    Prop where
  sized : DefaultTtl R s
  inOrder : s.Throughout InOrder cs
  clock : OneClock cs
  event : OneEvent key T cs

/-- Redis answers every call for the key that asks the store. -/
def AnsweredByRedis (key : Key) (s : Instances ι server) (c : Call ι) : Prop :=
  c.key = key → s.Timely c → ∃ time, s.AnsweredAt c time

/-- Every call for the key that asks the store is left to one fallback, which is never full. -/
def LeftToFallback (i : ι) (key : Key) (s : Instances ι server) (c : Call ι) : Prop :=
  (c.key = key → s.Timely c → c.caller = i ∧ s.FallsBack c) ∧
    (c.caller = i → s.FallsBack c →
      ¬ ((s.stores i).fallback.evictExpired c.readings.fallbackNow).Full)

def OneStore (R : ℚ) (key : Key) (s : Instances ι server) (cs : List (Call ι)) : Prop :=
  (s.Throughout (AnsweredByRedis key) cs ∧ Prompt key (truncate (resolveDedupTtl R) - R) cs) ∨
    ∃ i, s.Throughout (LeftToFallback i key) cs ∧ Prompt key (resolveDedupTtl R - R) cs

omit [DecidableEq ι] in
theorem OneClock.tail (h : OneClock (c :: cs)) : OneClock cs where
  asked d hd := h.asked d (List.mem_cons_of_mem c hd)
  looked d hd := h.looked d (List.mem_cons_of_mem c hd)
  ordered := (List.pairwise_cons.mp h.ordered).2

theorem DefaultTtl.next (h : DefaultTtl R s) (c : Call ι) : DefaultTtl R (s.next c) := by
  intro i
  by_cases hcaller : c.caller = i
  · subst hcaller
    rw [stores_next_self]
    have hsettings := @IdempotencyKeyStore.settings_isDuplicate server (s.stores c.caller) s.data
      c.key c.timestamp c.readings
    exact ⟨hsettings.2.2.trans (h c.caller).1, hsettings.1.trans (h c.caller).2⟩
  · rw [stores_next_ne s hcaller]
    exact h i

theorem Watched.next (h : Watched R key T s (c :: cs)) : Watched R key T (s.next c) cs where
  sized := h.sized.next c
  inOrder := h.inOrder.2
  clock := h.clock.tail
  event d hd := h.event d (List.mem_cons_of_mem c hd)

theorem timesNew_cons (s : Instances ι server) (key : Key) (c : Call ι) (cs : List (Call ι)) :
    s.timesNew key (c :: cs) =
      (s.next c).timesNew key cs + if c.key = key ∧ s.result c = .new then 1 else 0 := by
  rw [timesNew, results, List.countP_cons]
  simp only [decide_eq_true_eq]
  rfl

omit [DecidableEq ι] in
theorem timely_of_new (h : s.result c = .new) : s.Timely c := by
  intro hold
  have hrejected := (@IdempotencyKeyStore.isDuplicate_tooOld server (s.stores c.caller) s.data
    c.key c.timestamp c.readings hold).2
  rw [result, isDuplicate, hrejected] at h
  cases h

omit [DecidableEq ι] in
theorem age_le_of_timely (hR : 0 < R) (hsized : DefaultTtl R s) (h : s.Timely c)
    (hT : c.timestamp = some T) : c.readings.replayNow - T ≤ R := by
  by_contra hold
  refine h ?_
  rw [hT, IdempotencyKeyStore.tooOld, (hsized c.caller).1]
  exact decide_eq_true ⟨hR, not_le.mp hold⟩

/-- Once the key is sure not to be new, it stays so. -/
theorem timesNew_eq_zero {I : Instances ι server → List (Call ι) → Prop}
    (hnew : ∀ s c cs, I s (c :: cs) → c.key = key → s.result c ≠ .new)
    (hkept : ∀ s c cs, I s (c :: cs) → I (s.next c) cs) (h : I s cs) : s.timesNew key cs = 0 := by
  induction cs generalizing s with
  | nil => rfl
  | cons c cs ih =>
    rw [timesNew_cons, ih (hkept s c cs h), if_neg fun h' => hnew s c cs h h'.1 h'.2]

/-- What holds while Redis holds the key for long enough. -/
structure RedisHolds (R : ℚ) (key : Key) (T expiry : ℚ) (s : Instances ι server)
    (cs : List (Call ι)) : Prop extends Watched R key T s cs where
  held : s.HeldByRedis key expiry
  lasting : T + truncate (resolveDedupTtl R) ≤ expiry
  answered : s.Throughout (AnsweredByRedis key) cs
  prompt : Prompt key (truncate (resolveDedupTtl R) - R) cs

theorem RedisHolds.next (h : RedisHolds R key T expiry s (c :: cs)) :
    RedisHolds R key T expiry (s.next c) cs where
  toWatched := h.toWatched.next
  held := heldByRedis_next h.inOrder.1 h.held
  lasting := h.lasting
  answered := h.answered.2
  prompt d hd := h.prompt d (List.mem_cons_of_mem c hd)

theorem RedisHolds.not_new (hR : 0 < R) (h : RedisHolds R key T expiry s (c :: cs))
    (hkey : c.key = key) : s.result c ≠ .new := by
  intro hnew
  have htimely := timely_of_new hnew
  obtain ⟨time, hanswered⟩ := h.answered.1 hkey htimely
  have htime : time ∈ c.readings.exchange.time := by
    rw [hanswered.2.1]
    rfl
  have hage := age_le_of_timely hR h.sized htimely (h.event c List.mem_cons_self hkey).1
  have hprompt := h.prompt c List.mem_cons_self hkey
  have hlast := (h.clock.asked c List.mem_cons_self time htime).2
  have hlasting := h.lasting
  have hearly : time < expiry := by linarith
  exact (answered_new hanswered hnew).1 (hkey ▸ h.held time (h.inOrder.1 time htime) hearly)

structure FallbackHolds (R : ℚ) (i : ι) (key : Key) (T expiry : ℚ) (s : Instances ι server)
    (cs : List (Call ι)) : Prop extends Watched R key T s cs where
  held : s.HeldByFallback i key expiry ∨ ∀ c ∈ cs, expiry ≤ c.readings.replayNow
  lasting : T + resolveDedupTtl R ≤ expiry
  left : s.Throughout (LeftToFallback i key) cs
  prompt : Prompt key (resolveDedupTtl R - R) cs

theorem FallbackHolds.next (h : FallbackHolds R i key T expiry s (c :: cs)) :
    FallbackHolds R i key T expiry (s.next c) cs where
  toWatched := h.toWatched.next
  held := by
    rcases h.held with hheld | hlate
    · by_cases hforget : s.MayForget i expiry c
      · obtain ⟨hcaller, hfalls, hexpired | hfull⟩ := hforget
        · refine .inr fun d hd => ?_
          exact hexpired.trans ((List.pairwise_cons.mp h.clock.ordered).1 d hd)
        · exact absurd hfull (h.left.1.2 hcaller hfalls)
      · exact .inl (heldByFallback_next hheld hforget)
    · exact .inr fun d hd => hlate d (List.mem_cons_of_mem c hd)
  lasting := h.lasting
  left := h.left.2
  prompt d hd := h.prompt d (List.mem_cons_of_mem c hd)

theorem FallbackHolds.not_new (hR : 0 < R) (h : FallbackHolds R i key T expiry s (c :: cs))
    (hkey : c.key = key) : s.result c ≠ .new := by
  intro hnew
  have htimely := timely_of_new hnew
  obtain ⟨hcaller, hfalls⟩ := h.left.1.1 hkey htimely
  have hage := age_le_of_timely hR h.sized htimely (h.event c List.mem_cons_self hkey).1
  have hprompt := h.prompt c List.mem_cons_self hkey
  have hlasting := h.lasting
  have hlooked := h.clock.looked c List.mem_cons_self
  rcases h.held with hheld | hlate
  · have hexpired := (fallback_new hfalls hnew).1 expiry (by rwa [hcaller, hkey])
    linarith
  · have hexpired := hlate c List.mem_cons_self
    linarith

/-- After the call that takes the event as new, none does so again. -/
theorem timesNew_next_eq_zero (hR : 0 < R) (h : Watched R key T s (c :: cs))
    (hstore : OneStore R key s (c :: cs)) (hkey : c.key = key) (hnew : s.result c = .new) :
    (s.next c).timesNew key cs = 0 := by
  have htimely := timely_of_new hnew
  have hstart := (h.event c List.mem_cons_self hkey).2
  rcases hstore with ⟨hanswered, hprompt⟩ | ⟨i, hleft, hprompt⟩
  · obtain ⟨time, hat⟩ := hanswered.1 hkey htimely
    have htime : time ∈ c.readings.exchange.time := by
      rw [hat.2.1]
      rfl
    have hfrom := (h.clock.asked c List.mem_cons_self time htime).1
    have hheld := (answered_new hat hnew).2
    rw [hkey, (h.sized c.caller).2] at hheld
    exact timesNew_eq_zero (I := RedisHolds R key T (time + truncate (resolveDedupTtl R)))
      (fun _ _ _ h hkey => h.not_new hR hkey) (fun _ _ _ h => h.next)
      ⟨h.next, hheld, by linarith, hanswered.2, fun d hd => hprompt d (List.mem_cons_of_mem c hd)⟩
  · obtain ⟨hcaller, hfalls⟩ := hleft.1.1 hkey htimely
    have hlooked := h.clock.looked c List.mem_cons_self
    have hheld := (fallback_new hfalls hnew).2
    rw [hcaller, hkey, (h.sized i).2] at hheld
    exact timesNew_eq_zero
      (I := FallbackHolds R i key T (c.readings.fallbackNow + resolveDedupTtl R))
      (fun _ _ _ h hkey => h.not_new hR hkey) (fun _ _ _ h => h.next)
      ⟨h.next, .inl hheld, by linarith, hleft.2,
        fun d hd => hprompt d (List.mem_cons_of_mem c hd)⟩

theorem OneStore.tail (h : OneStore R key s (c :: cs)) : OneStore R key (s.next c) cs := by
  rcases h with ⟨hanswered, hprompt⟩ | ⟨i, hleft, hprompt⟩
  · exact .inl ⟨hanswered.2, fun d hd => hprompt d (List.mem_cons_of_mem c hd)⟩
  · exact .inr ⟨i, hleft.2, fun d hd => hprompt d (List.mem_cons_of_mem c hd)⟩

/-- With a positive window, the default TTL and one store, an event of one time that is not in the
future is classified as new at most once, in every sequence of calls. -/
theorem new_at_most_once (hR : 0 < R) (h : Watched R key T s cs) (hstore : OneStore R key s cs) :
    s.timesNew key cs ≤ 1 := by
  induction cs generalizing s with
  | nil => exact Nat.zero_le 1
  | cons c cs ih =>
    rw [timesNew_cons]
    by_cases hnew : c.key = key ∧ s.result c = .new
    · rw [if_pos hnew, timesNew_next_eq_zero hR h hstore hnew.1 hnew.2]
    · rw [if_neg hnew]
      exact ih h.next hstore.tail

/-- Instances with one window, all of them on Redis. -/
def windowOf (R : ℚ) : Instances Bool expiringKeys where
  stores _ := .init R none true
  data := ([] : List (String × ℚ))
  redisTime := 0

/-- A call for an event of time 0 that asks Redis at `asked`. -/
def eventCall (looked asked : ℚ) : Call Bool where
  caller := true
  key := "f00d"
  timestamp := some 0
  readings := { replayNow := looked, exchange := .answered asked, fallbackNow := asked }

theorem watched_eventCalls (R : ℚ) {looked asked : ℚ} (hlooked : 0 ≤ looked)
    (hasked : looked ≤ asked) :
    Watched R "f00d" 0 (windowOf R) [eventCall 0 0, eventCall looked asked] where
  sized _ := ⟨rfl, rfl⟩
  inOrder := by
    refine ⟨?_, ?_, trivial⟩
    · rintro time ⟨⟩
      exact le_rfl
    · rintro time ⟨⟩
      exact hlooked.trans hasked
  clock := by
    refine ⟨?_, ?_, ?_⟩
    · simp [eventCall, Exchange.time, hasked]
    · simp [eventCall, hasked]
    · simp [eventCall, hlooked]
  event := by simp [OneEvent, eventCall, hlooked]

theorem new_at_most_once_hourly :
    (windowOf 3600).timesNew "f00d" [eventCall 0 0, eventCall 3600 3600] ≤ 1 := by
  refine new_at_most_once (by norm_num) (watched_eventCalls 3600 (by norm_num) le_rfl) (.inl ?_)
  refine ⟨⟨fun _ _ => ⟨0, ?_⟩, fun _ _ => ⟨3600, ?_⟩, trivial⟩, ?_⟩
  · exact ⟨by unfold Timely; decide +kernel, rfl, by decide +kernel⟩
  · exact ⟨by unfold Timely; decide +kernel, rfl, by decide +kernel⟩
  · have hspan := @half_day_lt_ttl 3600 (by norm_num)
    simp only [Prompt, List.mem_cons, List.not_mem_nil, or_false, forall_eq_or_imp, forall_eq,
      eventCall]
    constructor <;> intro _ <;> linarith

/-- Without a window nothing is too old, and with one a call may stall between its two readings. -/
theorem new_twice_after_ttl :
    (∃ cs, Watched 0 "f00d" 0 (windowOf 0) cs ∧
      (windowOf 0).Throughout (AnsweredByRedis "f00d") cs ∧
      (windowOf 0).timesNew "f00d" cs = 2) ∧
    ∃ cs, Watched 3600 "f00d" 0 (windowOf 3600) cs ∧
      (windowOf 3600).Throughout (AnsweredByRedis "f00d") cs ∧
      (windowOf 3600).timesNew "f00d" cs = 2 := by
  refine ⟨⟨[eventCall 0 0, eventCall 86400 86400], ?_, ?_, by decide +kernel⟩,
    ⟨[eventCall 0 0, eventCall 3600 86400], ?_, ?_, by decide +kernel⟩⟩
  · exact watched_eventCalls 0 (by norm_num) le_rfl
  · refine ⟨fun _ _ => ⟨0, ?_⟩, fun _ _ => ⟨86400, ?_⟩, trivial⟩
    · exact ⟨by unfold Timely; decide +kernel, rfl, by decide +kernel⟩
    · exact ⟨by unfold Timely; decide +kernel, rfl, by decide +kernel⟩
  · exact watched_eventCalls 3600 (by norm_num) (by norm_num)
  · refine ⟨fun _ _ => ⟨0, ?_⟩, fun _ _ => ⟨86400, ?_⟩, trivial⟩
    · exact ⟨by unfold Timely; decide +kernel, rfl, by decide +kernel⟩
    · exact ⟨by unfold Timely; decide +kernel, rfl, by decide +kernel⟩

end Instances

end EventDedup
