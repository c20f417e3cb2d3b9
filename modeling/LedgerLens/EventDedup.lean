import LedgerLens.LabelledRuns
import Mathlib.Data.List.MinMax
import Mathlib.Data.List.Nodup
import Mathlib.Data.Rat.Floor

/-!
# Event deduplication

`ingestion/dedup.py`: the idempotency key store of one instance, the Redis that the instances
share, and the classifications of a run of calls of any number of instances. Times are seconds;
a call is given the clock readings that it takes and how its exchange with Redis goes. The audit
tables are written and never read here.
-/
namespace EventDedup

open LabelledRuns

abbrev Key := String

inductive DedupResult where
  | new
  | duplicate
  | replayRejected
  deriving DecidableEq, Repr

def DEFAULT_DEDUP_TTL_SECONDS : ℚ := 86400
def DEDUP_REDIS_PREFIX : String := "ledgerlens:dedup:"

def resolveDedupTtl (replayWindowSeconds : ℚ) : ℚ :=
  let base := if 0 < replayWindowSeconds then replayWindowSeconds else 3600
  max (base * 2) DEFAULT_DEDUP_TTL_SECONDS

/-- `int` of a float. -/
def truncate (seconds : ℚ) : ℤ :=
  if 0 ≤ seconds then ⌊seconds⌋ else ⌈seconds⌉

structure InMemoryDedupStore where
  ttlSeconds : ℚ
  maxKeys : ℕ
  expiry : List (Key × ℚ)
  keys_nodup : (expiry.map Prod.fst).Nodup
  maxKeys_pos : 0 < maxKeys

namespace InMemoryDedupStore

def init (ttlSeconds : ℚ) (maxKeys : ℕ) (h : 0 < maxKeys) : InMemoryDedupStore where
  ttlSeconds := ttlSeconds
  maxKeys := maxKeys
  expiry := []
  keys_nodup := .nil
  maxKeys_pos := h

def live (s : InMemoryDedupStore) (now : ℚ) : List (Key × ℚ) :=
  s.expiry.filter fun entry => now < entry.2

def evictExpired (s : InMemoryDedupStore) (now : ℚ) : InMemoryDedupStore :=
  { s with
    expiry := s.live now
    keys_nodup := s.keys_nodup.sublist (List.filter_sublist.map Prod.fst) }

def Full (s : InMemoryDedupStore) : Prop :=
  s.maxKeys ≤ s.expiry.length

instance (s : InMemoryDedupStore) : Decidable s.Full :=
  inferInstanceAs (Decidable (_ ≤ _))

def oldest (s : InMemoryDedupStore) : Option Key :=
  (s.expiry.argmin Prod.snd).map Prod.fst

def pop (s : InMemoryDedupStore) (key : Option Key) : InMemoryDedupStore :=
  { s with
    expiry := s.expiry.filter fun entry => some entry.1 ≠ key
    keys_nodup := s.keys_nodup.sublist (List.filter_sublist.map Prod.fst) }

def put (s : InMemoryDedupStore) (key : Key) (time : ℚ) (h : key ∉ s.expiry.map Prod.fst) :
    InMemoryDedupStore :=
  { s with
    expiry := s.expiry ++ [(key, time)]
    keys_nodup := by
      rw [List.map_append, List.map_cons, List.map_nil, List.nodup_append]
      refine ⟨s.keys_nodup, List.nodup_singleton _, ?_⟩
      rintro k hk _ hmem rfl
      obtain rfl : k = key := List.mem_singleton.mp hmem
      exact h hk }

/-- A store at its bound drops a key before it takes one. -/
def makeRoom (s : InMemoryDedupStore) : InMemoryDedupStore :=
  if s.Full then s.pop s.oldest else s

theorem mem_makeRoom {s : InMemoryDedupStore} {entry : Key × ℚ} (h : entry ∈ s.makeRoom.expiry) :
    entry ∈ s.expiry := by
  rw [makeRoom] at h
  by_cases hfull : s.Full
  · rw [if_pos hfull] at h
    exact List.mem_of_mem_filter h
  · rwa [if_neg hfull] at h

def addIfAbsent (s : InMemoryDedupStore) (key : Key) (now : ℚ) : InMemoryDedupStore × Bool :=
  let s := s.evictExpired now
  if h : key ∈ s.expiry.map Prod.fst then (s, false)
  else
    (s.makeRoom.put key (now + s.ttlSeconds) fun hmem => by
        obtain ⟨entry, hentry, hkey⟩ := List.mem_map.mp hmem
        exact h (List.mem_map.mpr ⟨entry, mem_makeRoom hentry, hkey⟩),
      true)

theorem mem_evictExpired {s : InMemoryDedupStore} {now : ℚ} {entry : Key × ℚ} :
    entry ∈ (s.evictExpired now).expiry ↔ entry ∈ s.expiry ∧ now < entry.2 := by
  simp [evictExpired, live]

theorem added_iff {s : InMemoryDedupStore} {key : Key} {now : ℚ} :
    (s.addIfAbsent key now).2 ↔ ∀ time, (key, time) ∈ s.expiry → time ≤ now := by
  have hkey : key ∈ (s.evictExpired now).expiry.map Prod.fst ↔
      ∃ time, (key, time) ∈ s.expiry ∧ now < time := by
    rw [List.mem_map]
    constructor
    · rintro ⟨⟨_, time⟩, hmem, rfl⟩
      exact ⟨time, mem_evictExpired.mp hmem⟩
    · rintro ⟨time, hmem⟩
      exact ⟨(key, time), mem_evictExpired.mpr hmem, rfl⟩
  rw [addIfAbsent]
  by_cases hlive : key ∈ (s.evictExpired now).expiry.map Prod.fst
  · simp only [dif_pos hlive, Bool.false_eq_true, false_iff]
    intro hexpired
    obtain ⟨time, hmem, hlt⟩ := hkey.mp hlive
    exact absurd (hexpired time hmem) (not_le.mpr hlt)
  · simp only [dif_neg hlive, true_iff]
    intro time hmem
    by_contra hlt
    exact hlive (hkey.mpr ⟨time, hmem, not_le.mp hlt⟩)

theorem mem_addIfAbsent_of_added {s : InMemoryDedupStore} {key : Key} {now : ℚ}
    (h : (s.addIfAbsent key now).2) :
    (key, now + s.ttlSeconds) ∈ (s.addIfAbsent key now).1.expiry := by
  rw [addIfAbsent] at h ⊢
  by_cases hlive : key ∈ (s.evictExpired now).expiry.map Prod.fst
  · simp [dif_pos hlive] at h
  · rw [dif_neg hlive]
    exact List.mem_append_right _ (List.mem_singleton.mpr rfl)

theorem mem_addIfAbsent_of_mem {s : InMemoryDedupStore} {entry : Key × ℚ} {key : Key} {now : ℚ}
    (h : entry ∈ s.expiry) (hlive : now < entry.2) (hroom : ¬ (s.evictExpired now).Full) :
    entry ∈ (s.addIfAbsent key now).1.expiry := by
  have hmem : entry ∈ (s.evictExpired now).expiry := mem_evictExpired.mpr ⟨h, hlive⟩
  rw [addIfAbsent]
  by_cases hkey : key ∈ (s.evictExpired now).expiry.map Prod.fst
  · rwa [dif_pos hkey]
  · rw [dif_neg hkey]
    apply List.mem_append_left
    rwa [makeRoom, if_neg hroom]

theorem mem_of_mem_addIfAbsent {s : InMemoryDedupStore} {entry : Key × ℚ} {key : Key} {now : ℚ}
    (h : entry ∈ (s.addIfAbsent key now).1.expiry) : entry ∈ s.expiry ∨ entry.1 = key := by
  rw [addIfAbsent] at h
  by_cases hkey : key ∈ (s.evictExpired now).expiry.map Prod.fst
  · rw [dif_pos hkey] at h
    exact .inl (mem_evictExpired.mp h).1
  · rw [dif_neg hkey] at h
    rcases List.mem_append.mp h with hold | hnew
    · exact .inl (mem_evictExpired.mp (mem_makeRoom hold)).1
    · exact .inr (by rw [List.mem_singleton.mp hnew])

@[simp] theorem ttlSeconds_addIfAbsent (s : InMemoryDedupStore) (key : Key) (now : ℚ) :
    (s.addIfAbsent key now).1.ttlSeconds = s.ttlSeconds := by
  rw [addIfAbsent]
  by_cases hkey : key ∈ (s.evictExpired now).expiry.map Prod.fst
  · rw [dif_pos hkey]
    rfl
  · rw [dif_neg hkey]
    change (s.evictExpired now).makeRoom.ttlSeconds = s.ttlSeconds
    rw [makeRoom]
    by_cases hfull : (s.evictExpired now).Full
    · rw [if_pos hfull]
      rfl
    · rw [if_neg hfull]
      rfl

end InMemoryDedupStore

/-- A server whose `SET … NX EX …` keeps its documented contract: it sets a key that does not
exist, which then exists for that many seconds, and takes no other key away. The reply is `none`
for an error. -/
structure RedisServer where
  Data : Type
  Exists : Data → String → ℚ → Prop
  setNxEx : Data → String → ℤ → ℚ → Data × Option Bool
  absent_of_set : ∀ {d key ex now}, (setNxEx d key ex now).2 = some true → ¬ Exists d key now
  exists_of_set : ∀ {d key ex now t}, (setNxEx d key ex now).2 = some true → now ≤ t →
    t < now + ex → Exists (setNxEx d key ex now).1 key t
  exists_of_unset : ∀ {d key ex now}, (setNxEx d key ex now).2 = some false → Exists d key now
  exists_mono : ∀ {d key ex now k t}, now ≤ t → Exists d k t → Exists (setNxEx d key ex now).1 k t
  only_key : ∀ {d key ex now k t}, Exists (setNxEx d key ex now).1 k t → Exists d k t ∨ k = key

/-- A call to Redis raises without effect, raises after its effect, or is answered. -/
inductive Exchange where
  | refused
  | lost (time : ℚ)
  | answered (time : ℚ)
  deriving DecidableEq, Repr

def RedisServer.exchange (server : RedisServer) (d : server.Data) (key : String) (ex : ℤ) :
    Exchange → server.Data × Option Bool
  | .refused => (d, none)
  | .lost time => ((server.setNxEx d key ex time).1, none)
  | .answered time => server.setNxEx d key ex time

/-- `redis` tells whether the connection was made when the instance was. -/
structure IdempotencyKeyStore where
  replayWindowSeconds : ℚ
  ttlSeconds : ℚ
  redis : Bool
  fallback : InMemoryDedupStore
  seenTotal : ℕ
  duplicateTotal : ℕ
  replayRejectedTotal : ℕ
  fallback_ttl : fallback.ttlSeconds = ttlSeconds

/-- The clock readings of one call and its exchange with Redis. -/
structure Readings where
  replayNow : ℚ
  exchange : Exchange
  fallbackNow : ℚ
  deriving DecidableEq, Repr

namespace IdempotencyKeyStore

def init (replayWindowSeconds : ℚ) (ttlSeconds : Option ℚ) (redis : Bool) :
    IdempotencyKeyStore :=
  let ttl :=
    match ttlSeconds with
    | none => resolveDedupTtl replayWindowSeconds
    | some ttl => if ttl = 0 then resolveDedupTtl replayWindowSeconds else ttl
  { replayWindowSeconds := replayWindowSeconds
    ttlSeconds := ttl
    redis := redis
    fallback := .init ttl 1000000 (by decide)
    seenTotal := 0
    duplicateTotal := 0
    replayRejectedTotal := 0
    fallback_ttl := rfl }

variable {server : RedisServer}

/-- The reply of Redis, if there is one. -/
def askRedis (s : IdempotencyKeyStore) (d : server.Data) (key : Key) (r : Readings) :
    server.Data × Option Bool :=
  if s.redis then server.exchange d (DEDUP_REDIS_PREFIX ++ key) (truncate s.ttlSeconds) r.exchange
  else (d, none)

def storeAddIfAbsent (s : IdempotencyKeyStore) (d : server.Data) (key : Key) (r : Readings) :
    IdempotencyKeyStore × server.Data × Bool :=
  let asked := s.askRedis d key r
  match asked.2 with
  | some added => (s, asked.1, added)
  | none =>
    let out := s.fallback.addIfAbsent key r.fallbackNow
    ({ s with
        fallback := out.1
        fallback_ttl := (s.fallback.ttlSeconds_addIfAbsent key r.fallbackNow).trans
          s.fallback_ttl },
      asked.1, out.2)

/-- `timestamp` is the event time in seconds. -/
def tooOld (s : IdempotencyKeyStore) (timestamp : Option ℚ) (r : Readings) : Bool :=
  match timestamp with
  | none => false
  | some eventTime =>
    0 < s.replayWindowSeconds ∧ s.replayWindowSeconds < r.replayNow - eventTime

def isDuplicate (s : IdempotencyKeyStore) (d : server.Data) (key : Key) (timestamp : Option ℚ)
    (r : Readings) : IdempotencyKeyStore × server.Data × DedupResult :=
  let s := { s with seenTotal := s.seenTotal + 1 }
  if s.tooOld timestamp r then
    ({ s with replayRejectedTotal := s.replayRejectedTotal + 1 }, d, .replayRejected)
  else
    let out := s.storeAddIfAbsent d key r
    if out.2.2 then (out.1, out.2.1, .new)
    else ({ out.1 with duplicateTotal := out.1.duplicateTotal + 1 }, out.2.1, .duplicate)

variable {s : IdempotencyKeyStore} {d : server.Data} {key : Key} {timestamp : Option ℚ}
  {r : Readings}

theorem isDuplicate_tooOld (h : s.tooOld timestamp r) :
    (s.isDuplicate d key timestamp r).1.fallback = s.fallback ∧
      (s.isDuplicate d key timestamp r).2 = (d, .replayRejected) := by
  have hold : { s with seenTotal := s.seenTotal + 1 }.tooOld timestamp r := h
  rw [isDuplicate, if_pos hold]
  exact ⟨rfl, rfl⟩

theorem isDuplicate_answered (h : ¬ s.tooOld timestamp r) {added : Bool}
    (hreply : (s.askRedis d key r).2 = some added) :
    (s.isDuplicate d key timestamp r).1.fallback = s.fallback ∧
      (s.isDuplicate d key timestamp r).2 =
        ((s.askRedis d key r).1, if added then .new else .duplicate) := by
  have htimely : ¬ { s with seenTotal := s.seenTotal + 1 }.tooOld timestamp r := h
  have hseen : { s with seenTotal := s.seenTotal + 1 }.askRedis d key r = s.askRedis d key r := rfl
  rw [isDuplicate, if_neg htimely]
  simp only [storeAddIfAbsent, hseen, hreply]
  cases added with
  | true => exact ⟨rfl, rfl⟩
  | false => exact ⟨rfl, rfl⟩

theorem isDuplicate_unanswered (h : ¬ s.tooOld timestamp r)
    (hreply : (s.askRedis d key r).2 = none) :
    (s.isDuplicate d key timestamp r).1.fallback =
        (s.fallback.addIfAbsent key r.fallbackNow).1 ∧
      (s.isDuplicate d key timestamp r).2 = ((s.askRedis d key r).1,
        if (s.fallback.addIfAbsent key r.fallbackNow).2 then .new else .duplicate) := by
  have htimely : ¬ { s with seenTotal := s.seenTotal + 1 }.tooOld timestamp r := h
  have hseen : { s with seenTotal := s.seenTotal + 1 }.askRedis d key r = s.askRedis d key r := rfl
  rw [isDuplicate, if_neg htimely]
  simp only [storeAddIfAbsent, hseen, hreply]
  by_cases hadded : (s.fallback.addIfAbsent key r.fallbackNow).2
  · simp [hadded]
  · simp [hadded]

def Knows (s : IdempotencyKeyStore) (d : server.Data) (key : Key) : Prop :=
  (∃ t, server.Exists d (DEDUP_REDIS_PREFIX ++ key) t) ∨ key ∈ s.fallback.expiry.map Prod.fst

theorem exists_askRedis {k : Key}
    (h : ∃ t, server.Exists (s.askRedis d key r).1 (DEDUP_REDIS_PREFIX ++ k) t) :
    (∃ t, server.Exists d (DEDUP_REDIS_PREFIX ++ k) t) ∨ k = key := by
  obtain ⟨t, ht⟩ := h
  have hset : ∀ ex time,
      server.Exists (server.setNxEx d (DEDUP_REDIS_PREFIX ++ key) ex time).1
        (DEDUP_REDIS_PREFIX ++ k) t →
      (∃ t, server.Exists d (DEDUP_REDIS_PREFIX ++ k) t) ∨ k = key := by
    intro ex time hexists
    rcases server.only_key hexists with hold | hkey
    · exact .inl ⟨t, hold⟩
    · exact .inr (String.append_right_inj _ |>.mp hkey)
  rw [askRedis] at ht
  by_cases hredis : s.redis
  · rw [if_pos hredis] at ht
    cases hexchange : r.exchange with
    | refused => exact .inl ⟨t, by simpa [hexchange, RedisServer.exchange] using ht⟩
    | lost time =>
      rw [hexchange] at ht
      exact hset _ time ht
    | answered time =>
      rw [hexchange] at ht
      exact hset _ time ht
  · rw [if_neg hredis] at ht
    exact .inl ⟨t, ht⟩

/-- A call makes no key known but its own, and that only if it lets the event through. -/
theorem knows_isDuplicate {k : Key}
    (h : (s.isDuplicate d key timestamp r).1.Knows (s.isDuplicate d key timestamp r).2.1 k) :
    s.Knows d k ∨ k = key ∧ ¬ s.tooOld timestamp r := by
  by_cases hold : s.tooOld timestamp r
  · obtain ⟨hfallback, hresult⟩ := @isDuplicate_tooOld server s d key timestamp r hold
    rw [Knows, hfallback, hresult] at h
    exact .inl h
  · have hdata : (s.isDuplicate d key timestamp r).2.1 = (s.askRedis d key r).1 := by
      cases hreply : (s.askRedis d key r).2 with
      | none => exact congrArg Prod.fst (isDuplicate_unanswered hold hreply).2
      | some added => exact congrArg Prod.fst (isDuplicate_answered hold hreply).2
    rw [Knows, hdata] at h
    rcases h with hexists | hlocal
    · rcases exists_askRedis hexists with hexists | hkey
      · exact .inl (.inl hexists)
      · exact .inr ⟨hkey, hold⟩
    · cases hreply : (s.askRedis d key r).2 with
      | some added =>
        rw [(isDuplicate_answered hold hreply).1] at hlocal
        exact .inl (.inr hlocal)
      | none =>
        rw [(isDuplicate_unanswered hold hreply).1] at hlocal
        obtain ⟨entry, hentry, rfl⟩ := List.mem_map.mp hlocal
        rcases InMemoryDedupStore.mem_of_mem_addIfAbsent hentry with hbefore | hkey
        · exact .inl (.inr (List.mem_map_of_mem hbefore))
        · exact .inr ⟨hkey, hold⟩

theorem knows_of_duplicate (h : (s.isDuplicate d key timestamp r).2.2 = .duplicate) :
    s.Knows d key := by
  by_cases hold : s.tooOld timestamp r
  · rw [(isDuplicate_tooOld hold).2] at h
    cases h
  · cases hreply : (s.askRedis d key r).2 with
    | none =>
      rw [(isDuplicate_unanswered hold hreply).2] at h
      by_cases hadded : (s.fallback.addIfAbsent key r.fallbackNow).2
      · simp [hadded] at h
      · right
        by_contra hunknown
        apply hadded
        apply InMemoryDedupStore.added_iff.mpr
        intro time hmem
        exact absurd (List.mem_map_of_mem hmem) hunknown
    | some added =>
      rw [(isDuplicate_answered hold hreply).2] at h
      have hadded : added = false := by
        by_contra hnot
        simp [hnot] at h
      left
      rw [hadded, askRedis] at hreply
      by_cases hredis : s.redis
      · rw [if_pos hredis] at hreply
        cases hexchange : r.exchange with
        | refused => simp [hexchange, RedisServer.exchange] at hreply
        | lost time => simp [hexchange, RedisServer.exchange] at hreply
        | answered time =>
          rw [hexchange] at hreply
          exact ⟨time, server.exists_of_unset hreply⟩
      · simp [hredis] at hreply

theorem new_or_duplicate (h : ¬ s.tooOld timestamp r) :
    (s.isDuplicate d key timestamp r).2.2 = .new ∨
      (s.isDuplicate d key timestamp r).2.2 = .duplicate := by
  cases hreply : (s.askRedis d key r).2 with
  | none =>
    rw [(isDuplicate_unanswered h hreply).2]
    by_cases hadded : (s.fallback.addIfAbsent key r.fallbackNow).2
    · exact .inl (if_pos hadded)
    · exact .inr (if_neg hadded)
  | some added =>
    rw [(isDuplicate_answered h hreply).2]
    cases added with
    | true => exact .inl rfl
    | false => exact .inr rfl

theorem exists_of_knows_init {replayWindowSeconds : ℚ} {ttlSeconds : Option ℚ} {redis : Bool}
    {k : Key} (h : (init replayWindowSeconds ttlSeconds redis).Knows d k) :
    ∃ t, server.Exists d (DEDUP_REDIS_PREFIX ++ k) t := by
  rcases h with hexists | hlocal
  · exact hexists
  · simp [init, InMemoryDedupStore.init] at hlocal

theorem settings_isDuplicate :
    (s.isDuplicate d key timestamp r).1.ttlSeconds = s.ttlSeconds ∧
      (s.isDuplicate d key timestamp r).1.redis = s.redis ∧
      (s.isDuplicate d key timestamp r).1.replayWindowSeconds = s.replayWindowSeconds := by
  rw [isDuplicate]
  by_cases hold : { s with seenTotal := s.seenTotal + 1 }.tooOld timestamp r
  · rw [if_pos hold]
    exact ⟨rfl, rfl, rfl⟩
  · rw [if_neg hold]
    have hstore : ∀ s' : IdempotencyKeyStore,
        (s'.storeAddIfAbsent d key r).1.ttlSeconds = s'.ttlSeconds ∧
          (s'.storeAddIfAbsent d key r).1.redis = s'.redis ∧
          (s'.storeAddIfAbsent d key r).1.replayWindowSeconds = s'.replayWindowSeconds := by
      intro s'
      rw [storeAddIfAbsent]
      cases (s'.askRedis d key r).2 with
      | none => exact ⟨rfl, rfl, rfl⟩
      | some added => exact ⟨rfl, rfl, rfl⟩
    have hseen := hstore { s with seenTotal := s.seenTotal + 1 }
    by_cases hadded :
        ({ s with seenTotal := s.seenTotal + 1 }.storeAddIfAbsent d key r).2.2
    · simpa only [if_pos hadded] using hseen
    · simpa only [if_neg hadded] using hseen

end IdempotencyKeyStore

def Exchange.time : Exchange → Option ℚ
  | .refused => none
  | .lost time => some time
  | .answered time => some time

structure Call (ι : Type*) where
  caller : ι
  key : Key
  timestamp : Option ℚ
  readings : Readings
  deriving DecidableEq

/-- `redisTime` is the time at the server of its last exchange. -/
structure Instances (ι : Type*) (server : RedisServer) where
  stores : ι → IdempotencyKeyStore
  data : server.Data
  redisTime : ℚ

namespace Instances

variable {ι : Type*} [DecidableEq ι] {server : RedisServer}

def isDuplicate (s : Instances ι server) (c : Call ι) :
    IdempotencyKeyStore × server.Data × DedupResult :=
  (s.stores c.caller).isDuplicate s.data c.key c.timestamp c.readings

def next (s : Instances ι server) (c : Call ι) : Instances ι server where
  stores := Function.update s.stores c.caller (s.isDuplicate c).1
  data := (s.isDuplicate c).2.1
  redisTime := c.readings.exchange.time.getD s.redisTime

def result (s : Instances ι server) (c : Call ι) : DedupResult :=
  (s.isDuplicate c).2.2

/-- The clock of the server does not run back. -/
def InOrder (s : Instances ι server) (c : Call ι) : Prop :=
  ∀ time ∈ c.readings.exchange.time, s.redisTime ≤ time

def Step (s : Instances ι server) (c : Call ι) (t : Instances ι server) : Prop :=
  s.InOrder c ∧ t = s.next c

def Timely (s : Instances ι server) (c : Call ι) : Prop :=
  ¬ (s.stores c.caller).tooOld c.timestamp c.readings

def reply (s : Instances ι server) (c : Call ι) : Option Bool :=
  ((s.stores c.caller).askRedis s.data c.key c.readings).2

/-- Redis answers the call at a time. -/
def AnsweredAt (s : Instances ι server) (c : Call ι) (time : ℚ) : Prop :=
  s.Timely c ∧ c.readings.exchange = .answered time ∧ (s.reply c).isSome

def FallsBack (s : Instances ι server) (c : Call ι) : Prop :=
  s.Timely c ∧ s.reply c = none

def HeldByRedis (s : Instances ι server) (key : Key) (expiry : ℚ) : Prop :=
  ∀ t, s.redisTime ≤ t → t < expiry → server.Exists s.data (DEDUP_REDIS_PREFIX ++ key) t

def HeldByFallback (s : Instances ι server) (i : ι) (key : Key) (expiry : ℚ) : Prop :=
  (key, expiry) ∈ (s.stores i).fallback.expiry

theorem stores_next_self (s : Instances ι server) (c : Call ι) :
    (s.next c).stores c.caller = (s.isDuplicate c).1 :=
  Function.update_self ..

theorem stores_next_ne (s : Instances ι server) {c : Call ι} {i : ι} (h : c.caller ≠ i) :
    (s.next c).stores i = s.stores i :=
  Function.update_of_ne h.symm ..

theorem data_next (s : Instances ι server) (c : Call ι) :
    (s.next c).data = s.data ∨ ∃ time ex, c.readings.exchange.time = some time ∧
      (s.next c).data = (server.setNxEx s.data (DEDUP_REDIS_PREFIX ++ c.key) ex time).1 := by
  by_cases htimely : s.Timely c
  · have hdata : (s.next c).data =
        ((s.stores c.caller).askRedis s.data c.key c.readings).1 := by
      cases hreply : s.reply c with
      | none =>
        exact congrArg Prod.fst (IdempotencyKeyStore.isDuplicate_unanswered htimely hreply).2
      | some added =>
        exact congrArg Prod.fst (IdempotencyKeyStore.isDuplicate_answered htimely hreply).2
    rw [hdata, IdempotencyKeyStore.askRedis]
    by_cases hredis : (s.stores c.caller).redis
    · rw [if_pos hredis]
      cases c.readings.exchange with
      | refused => exact .inl rfl
      | lost time => exact .inr ⟨time, _, rfl, rfl⟩
      | answered time => exact .inr ⟨time, _, rfl, rfl⟩
    · rw [if_neg hredis]
      exact .inl rfl
  · left
    exact congrArg Prod.fst (IdempotencyKeyStore.isDuplicate_tooOld (not_not.mp htimely)).2

theorem heldByRedis_next {s : Instances ι server} {c : Call ι} {key : Key} {expiry : ℚ}
    (horder : s.InOrder c) (h : s.HeldByRedis key expiry) : (s.next c).HeldByRedis key expiry := by
  intro t hnow hexpiry
  have hbefore : s.redisTime ≤ t := by
    cases htime : c.readings.exchange.time with
    | none => simpa [next, htime] using hnow
    | some time =>
      have htimeLe : time ≤ t := by simpa [next, htime] using hnow
      exact (horder time htime).trans htimeLe
  have hexists := h t hbefore hexpiry
  rcases data_next s c with hdata | ⟨time, ex, htime, hdata⟩
  · rwa [hdata]
  · rw [hdata]
    apply server.exists_mono _ hexists
    simpa [next, htime] using hnow

theorem answered_new {s : Instances ι server} {c : Call ι} {time : ℚ} (h : s.AnsweredAt c time)
    (hnew : s.result c = .new) :
    ¬ server.Exists s.data (DEDUP_REDIS_PREFIX ++ c.key) time ∧
      (s.next c).HeldByRedis c.key (time + truncate (s.stores c.caller).ttlSeconds) := by
  obtain ⟨htimely, hexchange, hsome⟩ := h
  obtain ⟨added, hreply⟩ := Option.isSome_iff_exists.mp hsome
  have hanswer := (IdempotencyKeyStore.isDuplicate_answered htimely hreply).2
  have hadded : added = true := by
    have hresult : (if added then DedupResult.new else .duplicate) = .new :=
      (congrArg Prod.snd hanswer).symm.trans hnew
    by_contra hnot
    simp [hnot] at hresult
  have hredis : (s.stores c.caller).redis := by
    by_contra hnone
    simp [reply, IdempotencyKeyStore.askRedis, hnone] at hreply
  have hask : (s.stores c.caller).askRedis s.data c.key c.readings =
      server.setNxEx s.data (DEDUP_REDIS_PREFIX ++ c.key)
        (truncate (s.stores c.caller).ttlSeconds) time := by
    rw [IdempotencyKeyStore.askRedis, if_pos hredis, hexchange]
    rfl
  have hset : (server.setNxEx s.data (DEDUP_REDIS_PREFIX ++ c.key)
      (truncate (s.stores c.caller).ttlSeconds) time).2 = some true := by
    rw [← hask, ← hadded]
    exact hreply
  refine ⟨server.absent_of_set hset, ?_⟩
  intro t hnow hexpiry
  have hdata : (s.next c).data = ((s.stores c.caller).askRedis s.data c.key c.readings).1 :=
    congrArg Prod.fst hanswer
  rw [hdata, hask]
  apply server.exists_of_set hset _ hexpiry
  simpa [next, hexchange, Exchange.time] using hnow

def MayForget (s : Instances ι server) (i : ι) (expiry : ℚ) (c : Call ι) : Prop :=
  c.caller = i ∧ s.FallsBack c ∧ (expiry ≤ c.readings.fallbackNow ∨
    ((s.stores i).fallback.evictExpired c.readings.fallbackNow).Full)

theorem heldByFallback_next {s : Instances ι server} {c : Call ι} {i : ι} {key : Key}
    {expiry : ℚ} (h : s.HeldByFallback i key expiry) (hkept : ¬ s.MayForget i expiry c) :
    (s.next c).HeldByFallback i key expiry := by
  rw [HeldByFallback]
  by_cases hcaller : c.caller = i
  · subst hcaller
    rw [stores_next_self]
    by_cases htimely : s.Timely c
    · cases hreply : s.reply c with
      | some added =>
        rw [isDuplicate, (IdempotencyKeyStore.isDuplicate_answered htimely hreply).1]
        exact h
      | none =>
        rw [isDuplicate, (IdempotencyKeyStore.isDuplicate_unanswered htimely hreply).1]
        apply InMemoryDedupStore.mem_addIfAbsent_of_mem h
        · by_contra hexpired
          exact hkept ⟨rfl, ⟨htimely, hreply⟩, .inl (not_lt.mp hexpired)⟩
        · intro hfull
          exact hkept ⟨rfl, ⟨htimely, hreply⟩, .inr hfull⟩
    · rw [isDuplicate, (IdempotencyKeyStore.isDuplicate_tooOld (not_not.mp htimely)).1]
      exact h
  · rw [stores_next_ne s hcaller]
    exact h

theorem fallback_new {s : Instances ι server} {c : Call ι} (h : s.FallsBack c)
    (hnew : s.result c = .new) :
    (∀ expiry, s.HeldByFallback c.caller c.key expiry → expiry ≤ c.readings.fallbackNow) ∧
      (s.next c).HeldByFallback c.caller c.key
        (c.readings.fallbackNow + (s.stores c.caller).ttlSeconds) := by
  obtain ⟨hfallback, hresult⟩ := IdempotencyKeyStore.isDuplicate_unanswered h.1 h.2
  have hadded : ((s.stores c.caller).fallback.addIfAbsent c.key c.readings.fallbackNow).2 := by
    have hnewIf := (congrArg Prod.snd hresult).symm.trans hnew
    by_contra hnot
    simp [hnot] at hnewIf
  refine ⟨InMemoryDedupStore.added_iff.mp hadded, ?_⟩
  rw [HeldByFallback, stores_next_self, isDuplicate, hfallback,
    ← (s.stores c.caller).fallback_ttl]
  exact InMemoryDedupStore.mem_addIfAbsent_of_added hadded

theorem heldByRedis_run {s t : Instances ι server} {cs : List (Call ι)} (h : Run Step s cs t)
    {key : Key} {expiry : ℚ} (hheld : s.HeldByRedis key expiry) : t.HeldByRedis key expiry := by
  apply h.invariant _ hheld
  rintro u c _ hu ⟨horder, rfl⟩
  exact heldByRedis_next horder hu

theorem heldByFallback_run {s t : Instances ι server} {cs : List (Call ι)} (h : Run Step s cs t)
    {i : ι} {key : Key} {expiry : ℚ} (hheld : s.HeldByFallback i key expiry) :
    t.HeldByFallback i key expiry ∨ ∃ before c after u, cs = before ++ c :: after ∧
      Run Step s before u ∧ u.MayForget i expiry c := by
  induction h with
  | refl => exact .inl hheld
  | @tail u v cs c hrun hstep ih =>
    rcases ih with hu | ⟨before, d, after, w, rfl, hw, hforget⟩
    · by_cases hforget : u.MayForget i expiry c
      · exact .inr ⟨cs, c, [], u, rfl, hrun, hforget⟩
      · left
        rw [hstep.2]
        exact heldByFallback_next hu hforget
    · exact .inr ⟨before, d, after ++ [c], w, by simp, hw, hforget⟩

/-- Two calls of a run that classify one key as new are, if Redis answers both, its TTL apart,
and if both are left to the fallback of one instance, the fallback found the key expired, or
itself full, by the second. -/
theorem new_again {s t : Instances ι server} {c c' : Call ι} {mid : List (Call ι)}
    (hrun : Run Step (s.next c) mid t) (horder : t.InOrder c') (hkey : c'.key = c.key)
    (hnew : s.result c = .new) (hnew' : t.result c' = .new) :
    (∀ time time', s.AnsweredAt c time → t.AnsweredAt c' time' →
      time + truncate (s.stores c.caller).ttlSeconds ≤ time') ∧
    (c'.caller = c.caller → s.FallsBack c → t.FallsBack c' →
      ∃ before d after u, mid ++ [c'] = before ++ d :: after ∧ Run Step (s.next c) before u ∧
        u.MayForget c.caller
          (c.readings.fallbackNow + (s.stores c.caller).ttlSeconds) d) := by
  constructor
  · intro time time' hanswered hanswered'
    have hheld := heldByRedis_run hrun (answered_new hanswered hnew).2
    have habsent := (answered_new hanswered' hnew').1
    by_contra hearly
    apply habsent
    rw [hkey]
    apply hheld time' _ (not_le.mp hearly)
    exact horder time' (by rw [hanswered'.2.1]; rfl)
  · intro hcaller hfalls hfalls'
    have hheld := (fallback_new hfalls hnew).2
    rcases heldByFallback_run hrun hheld with hstill | ⟨before, d, after, u, rfl, hu, hforget⟩
    · refine ⟨mid, c', [], t, rfl, hrun, hcaller, hfalls', .inl ?_⟩
      apply (fallback_new hfalls' hnew').1
      rwa [hcaller, hkey]
    · exact ⟨before, d, after ++ [c'], u, by simp, hu, hforget⟩

end Instances

def existsAt (d : List (String × ℚ)) (key : String) (t : ℚ) : Bool :=
  d.any fun entry => entry.1 = key ∧ t < entry.2

theorem existsAt_iff {d : List (String × ℚ)} {key : String} {t : ℚ} :
    existsAt d key t ↔ ∃ expiry, (key, expiry) ∈ d ∧ t < expiry := by
  simp [existsAt]

def setExpiring (d : List (String × ℚ)) (key : String) (ex : ℤ) (now : ℚ) :
    List (String × ℚ) × Option Bool :=
  if ex ≤ 0 then (d, none)
  else if existsAt d key now then (d, some false)
  else (d ++ [(key, now + ex)], some true)

theorem setExpiring_cases (d : List (String × ℚ)) (key : String) (ex : ℤ) (now : ℚ) :
    setExpiring d key ex now = (d, none) ∨
      (existsAt d key now ∧ setExpiring d key ex now = (d, some false)) ∨
      (¬ existsAt d key now ∧
        setExpiring d key ex now = (d ++ [(key, now + ex)], some true)) := by
  rw [setExpiring]
  by_cases hex : ex ≤ 0
  · exact .inl (if_pos hex)
  · rw [if_neg hex]
    by_cases hexists : existsAt d key now
    · exact .inr (.inl ⟨hexists, if_pos hexists⟩)
    · exact .inr (.inr ⟨hexists, if_neg hexists⟩)

def expiringKeys : RedisServer where
  Data := List (String × ℚ)
  Exists d key t := existsAt d key t
  setNxEx := setExpiring
  absent_of_set := by
    intro d key ex now h
    rcases setExpiring_cases d key ex now with heq | ⟨-, heq⟩ | ⟨habsent, -⟩
    · simp [heq] at h
    · simp [heq] at h
    · exact habsent
  exists_of_set := by
    intro d key ex now t h _ ht
    rcases setExpiring_cases d key ex now with heq | ⟨-, heq⟩ | ⟨-, heq⟩
    · simp [heq] at h
    · simp [heq] at h
    · rw [heq]
      exact existsAt_iff.mpr ⟨now + ex, by simp, ht⟩
  exists_of_unset := by
    intro d key ex now h
    rcases setExpiring_cases d key ex now with heq | ⟨hexists, -⟩ | ⟨-, heq⟩
    · simp [heq] at h
    · exact hexists
    · simp [heq] at h
  exists_mono := by
    intro d key ex now k t _ h
    rcases setExpiring_cases d key ex now with heq | ⟨-, heq⟩ | ⟨-, heq⟩
    · rwa [heq]
    · rwa [heq]
    · obtain ⟨expiry, hmem, hlt⟩ := existsAt_iff.mp h
      rw [heq]
      exact existsAt_iff.mpr ⟨expiry, List.mem_append_left _ hmem, hlt⟩
  only_key := by
    intro d key ex now k t h
    rcases setExpiring_cases d key ex now with heq | ⟨-, heq⟩ | ⟨-, heq⟩
    · rw [heq] at h
      exact .inl h
    · rw [heq] at h
      exact .inl h
    · rw [heq] at h
      obtain ⟨expiry, hmem, hlt⟩ := existsAt_iff.mp h
      rcases List.mem_append.mp hmem with hold | hadded
      · exact .inl (existsAt_iff.mpr ⟨expiry, hold, hlt⟩)
      · exact .inr (congrArg Prod.fst (List.mem_singleton.mp hadded))

namespace Instances

def twoInstances : Instances Bool expiringKeys where
  stores _ := .init 3600 none true
  data := ([] : List (String × ℚ))
  redisTime := 0

def callAt (caller : Bool) (time : ℚ) (exchange : Exchange) : Call Bool where
  caller := caller
  key := "f00d"
  timestamp := none
  readings := { replayNow := time, exchange := exchange, fallbackNow := time }

def firstCall : Call Bool := callAt true 5 (.answered 5)

theorem new_again_after_ttl :
    (5 : ℚ) + truncate (twoInstances.stores true).ttlSeconds ≤ 90000 := by
  have hrun : Run Step (twoInstances.next firstCall) [callAt false 6 (.answered 6)]
      ((twoInstances.next firstCall).next (callAt false 6 (.answered 6))) := by
    apply Run.single
    refine ⟨?_, rfl⟩
    rintro time ⟨⟩
    decide +kernel
  have horder : ((twoInstances.next firstCall).next (callAt false 6 (.answered 6))).InOrder
      (callAt false 90000 (.answered 90000)) := by
    rintro time ⟨⟩
    decide +kernel
  apply (new_again hrun horder rfl (by decide +kernel) (by decide +kernel)).1 5 90000
  · exact ⟨by unfold Timely; decide +kernel, rfl, by decide +kernel⟩
  · exact ⟨by unfold Timely; decide +kernel, rfl, by decide +kernel⟩

/-- While Redis is down for it, an instance takes as new what another has registered. -/
theorem new_twice_in_outage :
    twoInstances.result firstCall = .new ∧
      (twoInstances.next firstCall).result (callAt false 6 .refused) = .new ∧
      (6 : ℚ) < 5 + truncate (twoInstances.stores true).ttlSeconds := by
  decide +kernel

end Instances

end EventDedup
