import LedgerLens.CircuitBreaker
import LedgerLens.Dictionaries
import LedgerLens.FallbackCopies

/-!
# The feature store

`FeatureStore` of `detection/feature_store.py`: states of wallets in Redis, and in a dictionary of
the process while Redis is unreachable. Entries do not expire in Redis. How a state is written as
JSON and how keys are hashed are parameters.
-/
namespace FeatureStore

open CircuitBreaker Dictionaries FallbackCopies

def FEATURE_STORE_FAILURE_THRESHOLD : ℤ := 3

def FEATURE_STORE_RECOVERY_TIMEOUT_SECONDS : ℚ := 30

/-- Times are microseconds since the first of year one. The counts and ring buffers are `rest`. -/
structure WalletFeatureState (ρ : Type) where
  wallet : String
  assetPair : String
  lastUpdated : ℕ
  rest : ρ
  deriving DecidableEq

/-- What is written as JSON is read back. -/
structure Codec (ρ : Type) where
  modelDumpJson : WalletFeatureState ρ → String
  modelValidateJson : String → Option (WalletFeatureState ρ)
  validate_dump : ∀ state, modelValidateJson (modelDumpJson state) = some state
  dump_ne_empty : ∀ state, modelDumpJson state ≠ ""

/-- Whether the client connected to Redis when the store was made, and how much the dictionary of
the process holds. -/
structure Config where
  usingRedis : Bool := true
  maxFallbackEntries : ℕ := 10000
  circuit : Settings :=
    ⟨FEATURE_STORE_FAILURE_THRESHOLD, FEATURE_STORE_RECOVERY_TIMEOUT_SECONDS⟩

structure Store (ρ : Type) where
  redis : Dictionary String String
  fallbackDict : Dictionary String (WalletFeatureState ρ)
  lruOrder : List String
  circuit : Breaker

def Store.init (ρ : Type) : Store ρ := ⟨.empty, .empty, [], .initial⟩

section Operations

variable {ρ : Type} (codec : Codec ρ) (sha256 : String → String) (cfg : Config)

def hashKey (wallet assetPair : String) : String :=
  "ll:feature:" ++ sha256 (wallet ++ ":" ++ assetPair)

def WalletFeatureState.key (state : WalletFeatureState ρ) : String :=
  hashKey sha256 state.wallet state.assetPair

namespace Store

def redisAvailable (s : Store ρ) (now : ℚ) : Store ρ × Bool :=
  if cfg.usingRedis then
    let (circuit, allowed) := s.circuit.allowRequest cfg.circuit now
    ({ s with circuit := circuit }, allowed)
  else (s, false)

def recordSuccess (s : Store ρ) : Store ρ := { s with circuit := s.circuit.recordSuccess }

def recordFailure (s : Store ρ) (now : ℚ) : Store ρ :=
  { s with circuit := s.circuit.recordFailure cfg.circuit now }

def dropLocal (s : Store ρ) (key : String) : Store ρ :=
  if key ∈ s.fallbackDict.keys then
    { s with fallbackDict := s.fallbackDict.erase key, lruOrder := s.lruOrder.erase key }
  else s

/-- The state is kept in the process, where the entry written longest ago may make room for it. -/
def keepLocal (s : Store ρ) (key : String) (state : WalletFeatureState ρ) : Store ρ :=
  if key ∈ s.fallbackDict.keys then
    { s with
      fallbackDict := s.fallbackDict.set key state
      lruOrder := s.lruOrder.erase key ++ [key] }
  else if cfg.maxFallbackEntries ≤ s.fallbackDict.entries.length then
    match s.lruOrder with
    -- `popleft` of an empty deque raises
    | [] => s
    | lruKey :: rest =>
      { s with
        fallbackDict := (s.fallbackDict.erase lruKey).set key state
        lruOrder := rest ++ [key] }
  else
    { s with
      fallbackDict := s.fallbackDict.set key state
      lruOrder := s.lruOrder ++ [key] }

def setState (s : Store ρ) (state : WalletFeatureState ρ) (now : ℚ) (reachable : Bool) :
    Store ρ :=
  let key := state.key sha256
  let (s, available) := s.redisAvailable cfg now
  if available then
    if reachable then
      { s.recordSuccess with redis := s.redis.set key (codec.modelDumpJson state) }.dropLocal key
    else (s.recordFailure cfg now).keepLocal cfg key state
  else s.keepLocal cfg key state

/-- Nothing where the text in Redis cannot be read. -/
def redisState (s : Store ρ) (key : String) : Option (Option (WalletFeatureState ρ)) :=
  match s.redis.get? key with
  | none => some none
  | some data => if data = "" then some none else (codec.modelValidateJson data).map some

/-- The entry of the process where it is newer than what Redis has. -/
def newerLocal (s : Store ρ) (key : String) (redisState : Option (WalletFeatureState ρ)) :
    Option (WalletFeatureState ρ) :=
  match s.fallbackDict.get? key, redisState with
  | none, _ => none
  | some localState, none => some localState
  | some localState, some r =>
    if r.lastUpdated < localState.lastUpdated then some localState else none

def getState (s : Store ρ) (wallet assetPair : String) (now : ℚ) (reachable : Bool) :
    Store ρ × Option (WalletFeatureState ρ) :=
  let key := hashKey sha256 wallet assetPair
  let (s, available) := s.redisAvailable cfg now
  if available then
    if reachable then
      let s := s.recordSuccess
      match s.redisState codec key with
      | none => (s.recordFailure cfg now, s.fallbackDict.get? key)
      | some redisState =>
        match s.newerLocal key redisState with
        | some localState => (s.setState codec sha256 cfg localState now reachable, some localState)
        | none =>
          match redisState with
          | some r => (s, some r)
          | none => (s, s.fallbackDict.get? key)
    else (s.recordFailure cfg now, s.fallbackDict.get? key)
  else (s, s.fallbackDict.get? key)

def deleteState (s : Store ρ) (wallet assetPair : String) (now : ℚ) (reachable : Bool) :
    Store ρ :=
  let key := hashKey sha256 wallet assetPair
  let (s, available) := s.redisAvailable cfg now
  if available then
    if reachable then { s.recordSuccess with redis := s.redis.erase key }
    else (s.recordFailure cfg now).dropLocal key
  else s.dropLocal key

end Store

inductive Request (ρ : Type) where
  | setState (state : WalletFeatureState ρ)
  | getState (wallet assetPair : String)
  | deleteState (wallet assetPair : String)
  deriving DecidableEq

/-- A request at a time at which Redis is reachable or not. -/
structure Call (ρ : Type) where
  request : Request ρ
  now : ℚ
  reachable : Bool
  deriving DecidableEq

def Request.key : Request ρ → String
  | setState state => state.key sha256
  | getState wallet assetPair => hashKey sha256 wallet assetPair
  | deleteState wallet assetPair => hashKey sha256 wallet assetPair

def Request.op : Request ρ → Op (WalletFeatureState ρ)
  | setState state => .set state
  | getState _ _ => .get
  | deleteState _ _ => .delete

def Store.handle (s : Store ρ) (c : Call ρ) : Store ρ × Option (WalletFeatureState ρ) :=
  match c.request with
  | .setState state => (s.setState codec sha256 cfg state c.now c.reachable, none)
  | .getState wallet assetPair => s.getState codec sha256 cfg wallet assetPair c.now c.reachable
  | .deleteState wallet assetPair =>
    (s.deleteState sha256 cfg wallet assetPair c.now c.reachable, none)

def Store.next (s : Store ρ) (c : Call ρ) : Store ρ := (s.handle codec sha256 cfg c).1

/-- Redis serves the call. -/
def Store.served (s : Store ρ) (c : Call ρ) : Bool :=
  (s.redisAvailable cfg c.now).2 && c.reachable

/-- The call is to keep a new entry in the process, and there is no room for it. -/
def Store.Evicts (s : Store ρ) (c : Call ρ) : Prop :=
  ∃ state, c.request = .setState state ∧ s.served cfg c = false ∧
    state.key sha256 ∉ s.fallbackDict.keys ∧ cfg.maxFallbackEntries ≤ s.fallbackDict.entries.length

def Store.copiesAt (s : Store ρ) (key : String) : Copies (WalletFeatureState ρ) :=
  ⟨(s.redis.get? key).bind codec.modelValidateJson, s.fallbackDict.get? key⟩

/-- Redis holds what was dumped, and only a connected client reaches it. -/
structure Store.Sound (s : Store ρ) : Prop where
  dumped : ∀ key data, s.redis.get? key = some data → ∃ state, data = codec.modelDumpJson state
  connected : cfg.usingRedis = false → s.redis = .empty
  keyed : ∀ key state, s.fallbackDict.get? key = some state → state.key sha256 = key
  opened : s.circuit.state = .opened → s.circuit.openedAt ≠ none

variable {codec sha256 cfg}

theorem get?_dropLocal (s : Store ρ) (key key' : String) :
    (s.dropLocal key).fallbackDict.get? key' =
      if key' = key then none else s.fallbackDict.get? key' := by
  rw [Store.dropLocal]
  split_ifs with hmem hkey hkey
  · rw [hkey]
    exact Dictionary.get?_erase_self _ _
  · exact Dictionary.get?_erase_of_ne _ hkey
  · rw [hkey]
    by_contra hne
    exact hmem (Dictionary.mem_keys_iff.mpr (Option.ne_none_iff_exists'.mp hne))
  · rfl

theorem get?_keepLocal {s : Store ρ} {key : String}
    (hroom : key ∈ s.fallbackDict.keys ∨ s.fallbackDict.entries.length < cfg.maxFallbackEntries)
    (state : WalletFeatureState ρ) (key' : String) :
    (s.keepLocal cfg key state).fallbackDict.get? key' =
      if key' = key then some state else s.fallbackDict.get? key' := by
  have hset : (s.keepLocal cfg key state).fallbackDict = s.fallbackDict.set key state := by
    rw [Store.keepLocal]
    by_cases hmem : key ∈ s.fallbackDict.keys
    · rw [if_pos hmem]
    · rw [if_neg hmem, if_neg (not_le.mpr (hroom.resolve_left hmem))]
  rw [hset]
  split_ifs with hkey
  · rw [hkey]
    exact Dictionary.get?_set_self _ _ _
  · exact Dictionary.get?_set_of_ne _ hkey _

theorem redis_keepLocal (s : Store ρ) (key : String) (state : WalletFeatureState ρ) :
    (s.keepLocal cfg key state).redis = s.redis := by
  rw [Store.keepLocal]
  split_ifs
  · rfl
  · cases s.lruOrder <;> rfl
  · rfl

theorem circuit_keepLocal (s : Store ρ) (key : String) (state : WalletFeatureState ρ) :
    (s.keepLocal cfg key state).circuit = s.circuit := by
  rw [Store.keepLocal]
  split_ifs
  · rfl
  · cases s.lruOrder <;> rfl
  · rfl

theorem redis_dropLocal (s : Store ρ) (key : String) : (s.dropLocal key).redis = s.redis := by
  rw [Store.dropLocal]
  split_ifs <;> rfl

theorem circuit_dropLocal (s : Store ρ) (key : String) :
    (s.dropLocal key).circuit = s.circuit := by
  rw [Store.dropLocal]
  split_ifs <;> rfl

theorem redis_redisAvailable (s : Store ρ) (now : ℚ) :
    (s.redisAvailable cfg now).1.redis = s.redis := by
  rw [Store.redisAvailable]
  split_ifs <;> rfl

theorem fallbackDict_redisAvailable (s : Store ρ) (now : ℚ) :
    (s.redisAvailable cfg now).1.fallbackDict = s.fallbackDict := by
  rw [Store.redisAvailable]
  split_ifs <;> rfl

theorem usingRedis_of_available {s : Store ρ} {now : ℚ}
    (h : (s.redisAvailable cfg now).2 = true) : cfg.usingRedis = true := by
  rw [Store.redisAvailable] at h
  split_ifs at h with husing
  exact husing

/-- A state is as new as its last update. -/
abbrev rank : WalletFeatureState ρ → ℕ := WalletFeatureState.lastUpdated

theorem copiesAt_dropLocal (s : Store ρ) (key key' : String) :
    (s.dropLocal key).copiesAt codec key' =
      if key' = key then { s.copiesAt codec key' with fallback := none }
      else s.copiesAt codec key' := by
  rw [Store.copiesAt, redis_dropLocal, get?_dropLocal, Store.copiesAt]
  split_ifs <;> rfl

theorem copiesAt_keepLocal {s : Store ρ} {key : String}
    (hroom : key ∈ s.fallbackDict.keys ∨ s.fallbackDict.entries.length < cfg.maxFallbackEntries)
    (state : WalletFeatureState ρ) (key' : String) :
    (s.keepLocal cfg key state).copiesAt codec key' =
      if key' = key then { s.copiesAt codec key' with fallback := some state }
      else s.copiesAt codec key' := by
  rw [Store.copiesAt, redis_keepLocal, get?_keepLocal hroom, Store.copiesAt]
  split_ifs <;> rfl

theorem copiesAt_eraseRedis (s : Store ρ) (key key' : String) :
    { s with redis := s.redis.erase key }.copiesAt codec key' =
      if key' = key then { s.copiesAt codec key' with primary := none }
      else s.copiesAt codec key' := by
  rw [Store.copiesAt, Store.copiesAt]
  split_ifs with hkey
  · rw [hkey, Dictionary.get?_erase_self, Option.bind_none]
  · rw [Dictionary.get?_erase_of_ne _ hkey]

theorem copiesAt_redisAvailable (s : Store ρ) (now : ℚ) (key : String) :
    (s.redisAvailable cfg now).1.copiesAt codec key = s.copiesAt codec key := by
  rw [Store.copiesAt, redis_redisAvailable, fallbackDict_redisAvailable, Store.copiesAt]

theorem copiesAt_setState {s : Store ρ} {state : WalletFeatureState ρ} {now : ℚ}
    {reachable : Bool} (hroom : ((s.redisAvailable cfg now).2 && reachable) = false →
      state.key sha256 ∈ s.fallbackDict.keys ∨
        s.fallbackDict.entries.length < cfg.maxFallbackEntries) (key : String) :
    (s.setState codec sha256 cfg state now reachable).copiesAt codec key =
      if key = state.key sha256 then
        (s.copiesAt codec key).step rank ((s.redisAvailable cfg now).2 && reachable) (.set state)
      else s.copiesAt codec key := by
  have hcopies : (s.redisAvailable cfg now).1.copiesAt codec key = s.copiesAt codec key :=
    copiesAt_redisAvailable s now key
  have hdict : (s.redisAvailable cfg now).1.fallbackDict = s.fallbackDict :=
    fallbackDict_redisAvailable s now
  rw [Store.setState]
  cases h : s.redisAvailable cfg now with
  | mk t available =>
    rw [h] at hroom hcopies hdict
    rw [← hdict] at hroom
    rw [← hcopies]
    cases available with
    | true =>
      cases reachable with
      | true =>
        refine (copiesAt_dropLocal _ _ key).trans ?_
        by_cases hkey : key = state.key sha256
        · rw [if_pos hkey, if_pos hkey, Store.copiesAt, hkey, Dictionary.get?_set_self,
            Option.bind_some, codec.validate_dump]
          rfl
        · rw [if_neg hkey, if_neg hkey, Store.copiesAt, Dictionary.get?_set_of_ne _ hkey]
          rfl
      | false => exact copiesAt_keepLocal (s := t.recordFailure cfg now) (hroom rfl) state key
    | false => exact copiesAt_keepLocal (s := t) (hroom rfl) state key

theorem copiesAt_deleteState (s : Store ρ) (wallet assetPair : String) (now : ℚ)
    (reachable : Bool) (key : String) :
    (s.deleteState sha256 cfg wallet assetPair now reachable).copiesAt codec key =
      if key = hashKey sha256 wallet assetPair then
        (s.copiesAt codec key).step rank ((s.redisAvailable cfg now).2 && reachable) .delete
      else s.copiesAt codec key := by
  have hcopies : (s.redisAvailable cfg now).1.copiesAt codec key = s.copiesAt codec key :=
    copiesAt_redisAvailable s now key
  rw [Store.deleteState]
  cases h : s.redisAvailable cfg now with
  | mk t available =>
    rw [h] at hcopies
    rw [← hcopies]
    cases available with
    | true =>
      cases reachable with
      | true => exact copiesAt_eraseRedis t.recordSuccess _ key
      | false => exact copiesAt_dropLocal (t.recordFailure cfg now) _ key
    | false => exact copiesAt_dropLocal t _ key

theorem redisState_eq {s : Store ρ} (hdumped : ∀ key data, s.redis.get? key = some data →
    ∃ state, data = codec.modelDumpJson state) (key : String) :
    s.redisState codec key = some (s.copiesAt codec key).primary := by
  rw [Store.redisState, Store.copiesAt]
  cases h : s.redis.get? key with
  | none => rfl
  | some data =>
    obtain ⟨state, rfl⟩ := hdumped key data h
    simp [codec.dump_ne_empty, codec.validate_dump]

theorem newerLocal_eq (s : Store ρ) (key : String) :
    s.newerLocal key (s.copiesAt codec key).primary = (s.copiesAt codec key).newer rank := by
  unfold Store.newerLocal Store.copiesAt
  cases s.fallbackDict.get? key with
  | none => rfl
  | some state => cases (s.redis.get? key).bind codec.modelValidateJson <;> rfl

/-- A success closes the circuit, so that the next request is let through. -/
theorem redisAvailable_recordSuccess (husing : cfg.usingRedis = true) (s : Store ρ) (now : ℚ) :
    s.recordSuccess.redisAvailable cfg now = (s.recordSuccess, true) := by
  have hclosed : s.recordSuccess.circuit.state = .closed := by
    rw [Store.recordSuccess, Breaker.recordSuccess]
    split_ifs with hstate
    · rfl
    · exact not_not.mp hstate
  rw [Store.redisAvailable, if_pos husing, Breaker.allowRequest, Breaker.maybeTransitionToHalfOpen,
    if_neg fun h => by rw [hclosed] at h; cases h.1]
  simp [hclosed]

/-- A reader that Redis serves writes a newer entry of the process back. -/
theorem getState_eq {s : Store ρ} (hsound : s.Sound codec sha256 cfg) (wallet assetPair : String)
    (now : ℚ) (reachable : Bool) :
    s.getState codec sha256 cfg wallet assetPair now reachable =
      let (t, available) := s.redisAvailable cfg now
      if available && reachable then
        match (s.copiesAt codec (hashKey sha256 wallet assetPair)).newer rank with
        | some state => (t.recordSuccess.setState codec sha256 cfg state now reachable, some state)
        | none => (t.recordSuccess, (s.copiesAt codec (hashKey sha256 wallet assetPair)).primary)
      else
        (if available then t.recordFailure cfg now else t,
          (s.copiesAt codec (hashKey sha256 wallet assetPair)).fallback) := by
  generalize hkey : hashKey sha256 wallet assetPair = key
  have hcopies : (s.redisAvailable cfg now).1.copiesAt codec key = s.copiesAt codec key :=
    copiesAt_redisAvailable s now key
  have hredis : (s.redisAvailable cfg now).1.redis = s.redis := redis_redisAvailable s now
  rw [Store.getState, hkey]
  cases h : s.redisAvailable cfg now with
  | mk t available =>
    rw [h] at hcopies hredis
    rw [← hcopies]
    cases available with
    | false => rfl
    | true =>
      cases reachable with
      | false => rfl
      | true =>
        have hstate : t.recordSuccess.redisState codec key = some (t.copiesAt codec key).primary :=
          redisState_eq (s := t.recordSuccess) (fun k data hdata =>
            hsound.dumped k data (hredis ▸ hdata)) key
        have hnewer : t.recordSuccess.newerLocal key (t.copiesAt codec key).primary =
            (t.copiesAt codec key).newer rank := newerLocal_eq t.recordSuccess key
        dsimp only
        rw [hstate]
        dsimp only
        rw [hnewer]
        cases hnew : (t.copiesAt codec key).newer rank with
        | some state => rfl
        | none =>
          cases hprimary : (t.copiesAt codec key).primary with
          | some r => rfl
          | none => exact congrArg (Prod.mk _) (Copies.fallback_eq_none rank hnew hprimary)

theorem copiesAt_getState {s : Store ρ} (hsound : s.Sound codec sha256 cfg)
    (wallet assetPair : String) (now : ℚ) (reachable : Bool) (key : String) :
    (s.getState codec sha256 cfg wallet assetPair now reachable).1.copiesAt codec key =
      if key = hashKey sha256 wallet assetPair then
        (s.copiesAt codec key).step rank ((s.redisAvailable cfg now).2 && reachable) .get
      else s.copiesAt codec key := by
  have hcopies : (s.redisAvailable cfg now).1.copiesAt codec key = s.copiesAt codec key :=
    copiesAt_redisAvailable s now key
  have husing : (s.redisAvailable cfg now).2 = true → cfg.usingRedis = true :=
    usingRedis_of_available
  rw [getState_eq hsound]
  cases h : s.redisAvailable cfg now with
  | mk t available =>
    rw [h] at hcopies husing
    cases hserved : available && reachable with
    | false =>
      have hsame : (if available then t.recordFailure cfg now else t).copiesAt codec key =
          s.copiesAt codec key := by
        rw [← hcopies]
        cases available <;> rfl
      simpa [hserved, Copies.step] using hsame
    | true =>
      obtain ⟨rfl, rfl⟩ := Bool.and_eq_true_iff.mp hserved
      cases hnew : (s.copiesAt codec (hashKey sha256 wallet assetPair)).newer rank with
      | none =>
        refine hcopies.trans (Eq.symm ?_)
        split_ifs with hkey
        · rw [← hkey] at hnew
          simp [Copies.step, hnew]
        · rfl
      | some state =>
        have hstate : state.key sha256 = hashKey sha256 wallet assetPair :=
          hsound.keyed _ state (Copies.fallback_of_newer rank hnew)
        have havailable := redisAvailable_recordSuccess (husing rfl) t now
        have hset : (t.recordSuccess.setState codec sha256 cfg state now true).copiesAt codec key =
            if key = state.key sha256 then
              (t.copiesAt codec key).step rank
                ((t.recordSuccess.redisAvailable cfg now).2 && true) (.set state)
            else t.copiesAt codec key := by
          refine copiesAt_setState (fun hnot => ?_) key
          rw [havailable] at hnot
          cases hnot
        rw [havailable, hstate, hcopies] at hset
        refine hset.trans ?_
        split_ifs with hkey
        · rw [← hkey] at hnew
          simp [Copies.step, hnew]
        · rfl

theorem read_getState {s : Store ρ} (hsound : s.Sound codec sha256 cfg)
    (wallet assetPair : String) (now : ℚ) (reachable : Bool) :
    (s.getState codec sha256 cfg wallet assetPair now reachable).2 =
      (s.copiesAt codec (hashKey sha256 wallet assetPair)).read rank
        ((s.redisAvailable cfg now).2 && reachable) := by
  rw [getState_eq hsound, Copies.read]
  cases h : s.redisAvailable cfg now with
  | mk t available =>
    cases hserved : available && reachable with
    | false => simp [hserved]
    | true =>
      obtain ⟨rfl, rfl⟩ := Bool.and_eq_true_iff.mp hserved
      cases hnew : (s.copiesAt codec (hashKey sha256 wallet assetPair)).newer rank with
      | none => simp
      | some state => simp

theorem copiesAt_next {s : Store ρ} (hsound : s.Sound codec sha256 cfg) {c : Call ρ}
    (hroom : ¬ s.Evicts sha256 cfg c) (key : String) :
    (s.next codec sha256 cfg c).copiesAt codec key =
      if key = c.request.key sha256 then
        (s.copiesAt codec key).step rank (s.served cfg c) c.request.op
      else s.copiesAt codec key := by
  rw [Store.next, Store.handle]
  cases hrequest : c.request with
  | setState state =>
    refine copiesAt_setState (fun hserved => ?_) key
    by_contra hfull
    rw [not_or, not_lt] at hfull
    exact hroom ⟨state, hrequest, hserved, hfull⟩
  | getState wallet assetPair =>
    exact copiesAt_getState hsound wallet assetPair c.now c.reachable key
  | deleteState wallet assetPair =>
    exact copiesAt_deleteState s wallet assetPair c.now c.reachable key

/-- An open circuit knows since when it is open. -/
def Timed (b : Breaker) : Prop := b.state = .opened → b.openedAt ≠ none

theorem timed_recordSuccess (b : Breaker) : Timed b.recordSuccess := by
  intro hopened
  rw [Breaker.recordSuccess] at hopened
  split_ifs at hopened with hstate
  · cases hopened
  · exact absurd (hopened ▸ not_not.mp hstate) (by decide)

theorem Timed.recordFailure {b : Breaker} (h : Timed b) (settings : Settings) (now : ℚ) :
    Timed (b.recordFailure settings now) := by
  rw [Breaker.recordFailure]
  split_ifs
  · exact fun _ hnone => by cases hnone
  · exact fun _ hnone => by cases hnone
  · exact h

theorem Timed.redisAvailable {s : Store ρ} (h : Timed s.circuit) (now : ℚ) :
    Timed (s.redisAvailable cfg now).1.circuit := by
  rw [Store.redisAvailable]
  split_ifs
  · rw [Breaker.allowRequest, Breaker.maybeTransitionToHalfOpen]
    split_ifs
    · exact fun hopened => by cases hopened
    · exact h
  · exact h

theorem Timed.setState {s : Store ρ} (h : Timed s.circuit) (state : WalletFeatureState ρ)
    (now : ℚ) (reachable : Bool) :
    Timed (s.setState codec sha256 cfg state now reachable).circuit := by
  have havailable : Timed (s.redisAvailable cfg now).1.circuit := h.redisAvailable now
  rw [Store.setState]
  cases hcases : s.redisAvailable cfg now with
  | mk t available =>
    rw [hcases] at havailable
    cases available with
    | true =>
      cases reachable with
      | true =>
        dsimp only
        rw [if_pos rfl, if_pos rfl, circuit_dropLocal]
        exact timed_recordSuccess t.circuit
      | false =>
        dsimp only
        rw [if_pos rfl, if_neg Bool.false_ne_true, circuit_keepLocal]
        exact havailable.recordFailure cfg.circuit now
    | false =>
      dsimp only
      rw [if_neg Bool.false_ne_true, circuit_keepLocal]
      exact havailable

theorem redis_setState (s : Store ρ) (state : WalletFeatureState ρ) (now : ℚ)
    (reachable : Bool) :
    (s.setState codec sha256 cfg state now reachable).redis =
      if (s.redisAvailable cfg now).2 && reachable then
        s.redis.set (state.key sha256) (codec.modelDumpJson state)
      else s.redis := by
  have hredis : (s.redisAvailable cfg now).1.redis = s.redis := redis_redisAvailable s now
  rw [Store.setState]
  cases h : s.redisAvailable cfg now with
  | mk t available =>
    rw [h] at hredis
    rw [← hredis]
    cases available with
    | true =>
      cases reachable with
      | true => exact redis_dropLocal _ _
      | false => exact redis_keepLocal _ _ _
    | false => exact redis_keepLocal _ _ _

theorem redis_getState {s : Store ρ} (hsound : s.Sound codec sha256 cfg)
    (wallet assetPair : String) (now : ℚ) (reachable : Bool) :
    (s.getState codec sha256 cfg wallet assetPair now reachable).1.redis =
      if (s.redisAvailable cfg now).2 && reachable then
        match (s.copiesAt codec (hashKey sha256 wallet assetPair)).newer rank with
        | some state => s.redis.set (state.key sha256) (codec.modelDumpJson state)
        | none => s.redis
      else s.redis := by
  have hredis : (s.redisAvailable cfg now).1.redis = s.redis := redis_redisAvailable s now
  have husing : (s.redisAvailable cfg now).2 = true → cfg.usingRedis = true :=
    usingRedis_of_available
  rw [getState_eq hsound]
  cases h : s.redisAvailable cfg now with
  | mk t available =>
    rw [h] at hredis husing
    rw [← hredis]
    cases hserved : available && reachable with
    | false =>
      dsimp only
      rw [hserved, if_neg Bool.false_ne_true, if_neg Bool.false_ne_true]
      cases available <;> rfl
    | true =>
      obtain ⟨rfl, rfl⟩ := Bool.and_eq_true_iff.mp hserved
      dsimp only
      rw [hserved, if_pos rfl, if_pos rfl]
      cases (s.copiesAt codec (hashKey sha256 wallet assetPair)).newer rank with
      | none => rfl
      | some state =>
        dsimp only
        rw [redis_setState, redisAvailable_recordSuccess (husing rfl)]
        rfl

theorem redis_deleteState (s : Store ρ) (wallet assetPair : String) (now : ℚ)
    (reachable : Bool) :
    (s.deleteState sha256 cfg wallet assetPair now reachable).redis =
      if (s.redisAvailable cfg now).2 && reachable then
        s.redis.erase (hashKey sha256 wallet assetPair)
      else s.redis := by
  have hredis : (s.redisAvailable cfg now).1.redis = s.redis := redis_redisAvailable s now
  rw [Store.deleteState]
  cases h : s.redisAvailable cfg now with
  | mk t available =>
    rw [h] at hredis
    rw [← hredis]
    cases available with
    | false => exact redis_dropLocal _ _
    | true =>
      cases reachable with
      | false => exact redis_dropLocal _ _
      | true => rfl

/-- Redis stays as it is, or is written or erased at one key. -/
def Written (codec : Codec ρ) (redis redis' : Dictionary String String) : Prop :=
  redis' = redis ∨ (∃ key state, redis' = redis.set key (codec.modelDumpJson state)) ∨
    ∃ key, redis' = redis.erase key

theorem redis_next {s : Store ρ} (hsound : s.Sound codec sha256 cfg) (c : Call ρ) :
    Written codec s.redis (s.next codec sha256 cfg c).redis ∧
      (cfg.usingRedis = false → (s.next codec sha256 cfg c).redis = s.redis) := by
  have hserved {redis' : Dictionary String String} (hwritten : Written codec s.redis redis') :
      let redis := if (s.redisAvailable cfg c.now).2 && c.reachable then redis' else s.redis
      Written codec s.redis redis ∧ (cfg.usingRedis = false → redis = s.redis) := by
    intro redis
    by_cases h : ((s.redisAvailable cfg c.now).2 && c.reachable) = true
    · have hredis : redis = redis' := if_pos h
      rw [hredis]
      refine ⟨hwritten, fun hnot => ?_⟩
      rw [usingRedis_of_available (Bool.and_eq_true_iff.mp h).1] at hnot
      cases hnot
    · have hredis : redis = s.redis := if_neg h
      exact ⟨.inl hredis, fun _ => hredis⟩
  rw [Store.next, Store.handle]
  cases c.request with
  | setState state =>
    dsimp only
    rw [redis_setState]
    exact hserved (.inr (.inl ⟨_, state, rfl⟩))
  | getState wallet assetPair =>
    dsimp only
    rw [redis_getState hsound]
    refine hserved ?_
    cases (s.copiesAt codec (hashKey sha256 wallet assetPair)).newer rank with
    | none => exact .inl rfl
    | some state => exact .inr (.inl ⟨_, state, rfl⟩)
  | deleteState wallet assetPair =>
    dsimp only
    rw [redis_deleteState]
    exact hserved (.inr (.inr ⟨_, rfl⟩))

theorem Timed.getState {s : Store ρ} (hsound : s.Sound codec sha256 cfg)
    (wallet assetPair : String) (now : ℚ) (reachable : Bool) :
    Timed (s.getState codec sha256 cfg wallet assetPair now reachable).1.circuit := by
  have havailable : Timed (s.redisAvailable cfg now).1.circuit :=
    Timed.redisAvailable hsound.opened now
  rw [getState_eq hsound]
  cases h : s.redisAvailable cfg now with
  | mk t available =>
    rw [h] at havailable
    cases hserved : available && reachable with
    | false =>
      dsimp only
      rw [hserved, if_neg Bool.false_ne_true]
      cases available with
      | false => exact havailable
      | true => exact havailable.recordFailure cfg.circuit now
    | true =>
      dsimp only
      rw [hserved, if_pos rfl]
      cases (s.copiesAt codec (hashKey sha256 wallet assetPair)).newer rank with
      | none => exact timed_recordSuccess t.circuit
      | some state =>
        exact Timed.setState (s := t.recordSuccess) (timed_recordSuccess t.circuit) state now
          reachable

theorem Timed.deleteState {s : Store ρ} (hs : Timed s.circuit) (wallet assetPair : String)
    (now : ℚ) (reachable : Bool) :
    Timed (s.deleteState sha256 cfg wallet assetPair now reachable).circuit := by
  have havailable : Timed (s.redisAvailable cfg now).1.circuit := Timed.redisAvailable hs now
  rw [Store.deleteState]
  cases h : s.redisAvailable cfg now with
  | mk t available =>
    rw [h] at havailable
    cases available with
    | false =>
      dsimp only
      rw [if_neg Bool.false_ne_true, circuit_dropLocal]
      exact havailable
    | true =>
      cases reachable with
      | false =>
        dsimp only
        rw [if_pos rfl, if_neg Bool.false_ne_true, circuit_dropLocal]
        exact havailable.recordFailure cfg.circuit now
      | true => exact timed_recordSuccess t.circuit

theorem timed_next {s : Store ρ} (hsound : s.Sound codec sha256 cfg) (c : Call ρ) :
    Timed (s.next codec sha256 cfg c).circuit := by
  rw [Store.next, Store.handle]
  cases c.request with
  | setState state => exact Timed.setState hsound.opened state c.now c.reachable
  | getState wallet assetPair => exact Timed.getState hsound wallet assetPair c.now c.reachable
  | deleteState wallet assetPair =>
    exact Timed.deleteState hsound.opened wallet assetPair c.now c.reachable

theorem Store.Sound.next {s : Store ρ} (hsound : s.Sound codec sha256 cfg) {c : Call ρ}
    (hroom : ¬ s.Evicts sha256 cfg c) :
    (s.next codec sha256 cfg c).Sound codec sha256 cfg where
  dumped key data hdata := by
    rcases (redis_next hsound c).1 with hsame | ⟨key', state, hset⟩ | ⟨key', herase⟩
    · exact hsound.dumped key data (hsame ▸ hdata)
    · rw [hset] at hdata
      by_cases hkey : key = key'
      · rw [hkey, Dictionary.get?_set_self] at hdata
        exact ⟨state, (Option.some.inj hdata).symm⟩
      · rw [Dictionary.get?_set_of_ne _ hkey] at hdata
        exact hsound.dumped key data hdata
    · rw [herase] at hdata
      by_cases hkey : key = key'
      · rw [hkey, Dictionary.get?_erase_self] at hdata
        cases hdata
      · rw [Dictionary.get?_erase_of_ne _ hkey] at hdata
        exact hsound.dumped key data hdata
  connected husing := ((redis_next hsound c).2 husing).trans (hsound.connected husing)
  keyed key state hstate := by
    have hcopies := congrArg Copies.fallback (copiesAt_next hsound hroom key)
    split_ifs at hcopies with hkey
    · rcases Copies.fallback_step rank (hcopies.symm.trans hstate) with hold | hset
      · exact hsound.keyed key state hold
      · cases hrequest : c.request with
        | setState st =>
          rw [hrequest] at hset hkey
          rw [hkey, ← Op.set.inj hset]
          rfl
        | getState => rw [hrequest] at hset; cases hset
        | deleteState => rw [hrequest] at hset; cases hset
    · exact hsound.keyed key state (hcopies.symm.trans hstate)
  opened := timed_next hsound c

end Operations

end FeatureStore
