import LedgerLens.ApiKeyStore
import LedgerLens.CalendarPeriods
import LedgerLens.LabelledRuns

/-!
# The quotas of the gateway

`api/policy.py` and `api/gateway.py` with the quota checks of `detection/api_key_store.py`: any
number of requests in flight at once on one database, each in the hands of a worker that goes on
check by check. A request is logged when its response is there.
-/
namespace GatewayQuotas

open ApiKeyStore ChainSubmissionQueue IsoTimestamps LabelledRuns Workers

inductive AuthType where
  | adminKey
  | complianceKey
  | apiKey
  deriving DecidableEq

structure KeyMeta where
  keyId : String
  namespaceId : String
  scopes : List String
  rateLimitPerMinute : ℤ
  dailyQuota : ℤ
  namespaceDailyQuota : ℤ
  monthlyQuota : ℤ
  namespaceMonthlyQuota : ℤ
  authType : AuthType
  deriving DecidableEq

def ADMIN : KeyMeta := ⟨"__admin__", "*", ["admin"], 0, 0, 0, 0, 0, .adminKey⟩

def COMPLIANCE : KeyMeta :=
  ⟨"__compliance__", "*", ["compliance:read"], 0, 0, 0, 0, 0, .complianceKey⟩

def keyMeta (r : ApiKey) : KeyMeta :=
  ⟨r.keyId, r.namespaceId, r.scopes, r.rateLimitPerMinute, r.dailyQuota, r.namespaceDailyQuota,
    r.monthlyQuota, r.namespaceMonthlyQuota, .apiKey⟩

structure Settings where
  adminApiKey : String
  complianceApiKey : String

structure Credentials where
  adminKey : String
  apiKey : String
  complianceKey : String

/-- In microseconds since 1970. -/
def epoch (now : Utc) : Instant := now.1.instant - 719163 * 86400000000

def resolveCredentials (hashKey : String → String) (settings : Settings) (keys : ApiKeys)
    (now : Utc) (c : Credentials) : Option KeyMeta :=
  if c.adminKey ≠ "" ∧ settings.adminApiKey ≠ "" ∧ c.adminKey = settings.adminApiKey then
    some ADMIN
  else if c.complianceKey ≠ "" ∧ settings.complianceApiKey ≠ "" ∧
      c.complianceKey = settings.complianceApiKey then some COMPLIANCE
  else if c.apiKey = "" then none
  else (getApiKeyByHash keys (hashKey c.apiKey) (epoch now)).map keyMeta

def checkScope (requiredScope : String) (m : KeyMeta) : Bool :=
  decide (requiredScope ∈ m.scopes ∨ "admin" ∈ m.scopes)

/-- A row of `gateway_request_log`. -/
structure Row where
  keyId : String
  namespaceId : String
  recordedAt : Utc
  deriving DecidableEq

inductive Quota where
  | daily
  | namespaceDaily
  | monthly
  | namespaceMonthly
  deriving DecidableEq

def Quota.column : Quota → Row → String
  | .daily | .monthly => Row.keyId
  | .namespaceDaily | .namespaceMonthly => Row.namespaceId

def Quota.subject : Quota → KeyMeta → String
  | .daily | .monthly => KeyMeta.keyId
  | .namespaceDaily | .namespaceMonthly => KeyMeta.namespaceId

def Quota.limit : Quota → KeyMeta → ℤ
  | .daily => KeyMeta.dailyQuota
  | .namespaceDaily => KeyMeta.namespaceDailyQuota
  | .monthly => KeyMeta.monthlyQuota
  | .namespaceMonthly => KeyMeta.namespaceMonthlyQuota

def Quota.period : Quota → Period
  | .daily | .namespaceDaily => .day
  | .monthly | .namespaceMonthly => .month

def Quota.Exempts : Quota → String → Prop
  | .daily, _ | .monthly, _ => False
  | .namespaceDaily, id | .namespaceMonthly, id => id = "*"

instance (q : Quota) (id : String) : Decidable (q.Exempts id) := by
  cases q
  · exact isFalse fun h => h
  · exact inferInstanceAs (Decidable (id = "*"))
  · exact isFalse fun h => h
  · exact inferInstanceAs (Decidable (id = "*"))

def Quota.count (q : Quota) (log : List Row) (id : String) (start : Date) : ℕ :=
  (log.filter fun r => decide (q.column r = id ∧ q.period.start r.recordedAt = start)).length

/-- Whether a request is allowed and else when the quota is reset; an overflow after the year
9999. -/
def Quota.check (q : Quota) (log : List Row) (id : String) (limit : ℤ) (now : Utc) :
    Option (Bool × String) :=
  if q.Exempts id ∨ limit ≤ 0 then some (true, "")
  else if limit ≤ q.count log id (q.period.start now) then
    (q.period.next now).map fun reset => (false, reset.1.isoformat)
  else some (true, "")

def checkDailyQuota := Quota.daily.check

def checkNamespaceQuota := Quota.namespaceDaily.check

def checkMonthlyQuota := Quota.monthly.check

def checkNamespaceMonthlyQuota := Quota.namespaceMonthly.check

inductive Check where
  | rateLimit
  | quota (q : Quota)
  deriving DecidableEq

/-- What `check_quota` checks, in this order. -/
def checks (m : KeyMeta) : List Check :=
  (if 0 < m.rateLimitPerMinute then [.rateLimit] else []) ++
    ([.daily, .namespaceDaily, .monthly, .namespaceMonthly].filter fun q : Quota =>
      decide (0 < q.limit m ∧ ¬ q.Exempts (q.subject m))).map .quota

inductive Verdict where
  | passed
  | refused (header value : String)
  | raised
  deriving DecidableEq

/-- One check, `rateLimit` being what `check_rate_limit` returns. -/
def Check.verdict (rateLimit : Bool × ℕ) (log : List Row) (m : KeyMeta) (now : Utc) :
    Check → Verdict
  | .rateLimit => if rateLimit.1 then .passed else .refused "Retry-After" (toString rateLimit.2)
  | .quota q =>
    match q.check log (q.subject m) (q.limit m) now with
    | none => .raised
    | some (true, _) => .passed
    | some (false, resetAt) => .refused "X-LedgerLens-Quota-Reset" resetAt

inductive PolicyDecision where
  | unauthenticated
  | forbidden (requiredScope : String) (keyMeta : KeyMeta)
  | rateLimited (keyMeta : KeyMeta) (header value : String)
  deriving DecidableEq

def PolicyDecision.detail : PolicyDecision → String
  | .unauthenticated => "Unauthorized — provide a valid API key, admin key, or compliance key"
  | .forbidden requiredScope _ => s!"Scope '{requiredScope}' required"
  | .rateLimited _ _ _ => "Quota exceeded"

def PolicyDecision.statusCode : PolicyDecision → ℕ
  | .unauthenticated => 401
  | .forbidden _ _ => 403
  | .rateLimited _ _ _ => 429

inductive Work where
  | idle
  | checking (keyMeta : KeyMeta) (rest : List Check)
  | serving (keyMeta : Option KeyMeta)
  deriving DecidableEq

/-- A request without checks left is served. -/
def Work.next (m : KeyMeta) : List Check → Work
  | [] => .serving (some m)
  | check :: rest => .checking m (check :: rest)

def Work.row (keyMeta : Option KeyMeta) (now : Utc) : Row :=
  ⟨keyMeta.elim "" KeyMeta.keyId, keyMeta.elim "" KeyMeta.namespaceId, now⟩

/-- `served` are the rows of all the requests that were served, `lost` those of them that could not
be written. -/
structure State (W : Type) where
  now : Utc
  log : List Row
  served : List Row
  lost : List Row
  hand : W → Work
  denied : List PolicyDecision

inductive Event (W : Type) where
  | clock (later : Utc)
  | request (w : W) (requiredScope : Option String) (keys : ApiKeys) (c : Credentials)
  | check (w : W) (rateLimit : Bool × ℕ)
  | finish (w : W) (logged : Bool)

section

variable {W : Type} [DecidableEq W]

def State.init (now : Utc) : State W := ⟨now, [], [], [], fun _ => .idle, []⟩

def State.take (s : State W) (w : W) (work : Work) : State W :=
  { s with hand := Function.update s.hand w work }

def State.deny (s : State W) (w : W) (decision : PolicyDecision) : State W :=
  { s.take w .idle with denied := s.denied ++ [decision] }

/-- `enforce` up to the checks of `check_quota`. A route without a scope is public. -/
def State.request (hashKey : String → String) (settings : Settings) (s : State W) (w : W)
    (requiredScope : Option String) (keys : ApiKeys) (c : Credentials) : State W :=
  match requiredScope with
  | none => s.take w (.serving none)
  | some requiredScope =>
    match resolveCredentials hashKey settings keys s.now c with
    | none => s.deny w .unauthenticated
    | some m =>
      if checkScope requiredScope m then s.take w (.next m (checks m))
      else s.deny w (.forbidden requiredScope m)

/-- What was served is logged, unless the log cannot be written. -/
def State.finish (s : State W) (w : W) (row : Row) (logged : Bool) : State W :=
  { s.take w .idle with
    served := s.served ++ [row]
    log := if logged then s.log ++ [row] else s.log
    lost := if logged then s.lost else s.lost ++ [row] }

def step (hashKey : String → String) (settings : Settings) (s : State W) :
    Event W → Option (State W)
  | .clock later => if s.now.1.instant ≤ later.1.instant then some { s with now := later } else none
  | .request w requiredScope keys c =>
    match s.hand w with
    | .idle => some (s.request hashKey settings w requiredScope keys c)
    | .checking _ _ | .serving _ => none
  | .check w rateLimit =>
    match s.hand w with
    | .checking m (check :: rest) =>
      match check.verdict rateLimit s.log m s.now with
      | .passed => some (s.take w (.next m rest))
      | .refused header value => some (s.deny w (.rateLimited m header value))
      | .raised => some (s.take w .idle)
    | .checking _ [] | .idle | .serving _ => none
  | .finish w logged =>
    match s.hand w with
    | .serving m => some (s.finish w (Work.row m s.now) logged)
    | .idle | .checking _ _ => none

def Step (hashKey : String → String) (settings : Settings) (s : State W) (e : Event W)
    (t : State W) : Prop := step hashKey settings s e = some t

end

/-- The ids of requests that are not made with a key of the table. -/
def Quota.reserved (q : Quota) : List String := ["", q.subject ADMIN, q.subject COMPLIANCE]

def Event.Limits {W : Type} (q : Quota) (id : String) (limit : ℕ) : Event W → Prop
  | .request _ _ keys _ => ∀ r ∈ keys.rows, q.subject (keyMeta r) = id →
      0 < q.limit (keyMeta r) ∧ q.limit (keyMeta r) ≤ limit
  | .clock _ | .check _ _ | .finish _ _ => True

section

variable {q : Quota} {id : String} {limit : ℕ} {log : List Row} {row : Row} {start : Date}
  {m : KeyMeta} {keys : ApiKeys} {hashKey : String → String} {settings : Settings} {now : Utc}
  {c : Credentials}

theorem Quota.not_exempts (h : id ∉ q.reserved) : ¬ q.Exempts id := by
  cases q with
  | daily | monthly => exact fun hexempt => hexempt
  | namespaceDaily | namespaceMonthly =>
    intro hexempt
    exact h (List.mem_cons_of_mem _ (hexempt ▸ List.mem_cons_self))

theorem mem_of_getApiKeyByHash {keyHash : String} {at_ : Instant} {r : ApiKey}
    (h : getApiKeyByHash keys keyHash at_ = some r) : r ∈ keys.rows := by
  unfold getApiKeyByHash at h
  split at h
  · cases h
  · rename_i found hfound
    split_ifs at h
    cases h
    exact List.mem_of_find?_eq_some hfound

theorem mem_of_resolveCredentials (h : resolveCredentials hashKey settings keys now c = some m)
    (hid : q.subject m ∉ q.reserved) : ∃ r ∈ keys.rows, keyMeta r = m := by
  unfold resolveCredentials at h
  unfold Quota.reserved at hid
  split_ifs at h
  · cases h
    simp at hid
  · cases h
    simp at hid
  · obtain ⟨r, hr, rfl⟩ := Option.map_eq_some_iff.mp h
    exact ⟨r, mem_of_getApiKeyByHash hr, rfl⟩

theorem mem_checks : .quota q ∈ checks m ↔ 0 < q.limit m ∧ ¬ q.Exempts (q.subject m) := by
  unfold checks
  rw [List.mem_append, List.mem_map]
  constructor
  · rintro (h | ⟨q', hq', hquota⟩)
    · split_ifs at h <;> simp at h
    · cases hquota
      exact of_decide_eq_true (List.mem_filter.mp hq').2
  · intro h
    refine .inr ⟨q, List.mem_filter.mpr ⟨?_, decide_eq_true h⟩, rfl⟩
    cases q <;> decide

theorem count_concat : q.count (log ++ [row]) id start =
    q.count log id start + if q.column row = id ∧ q.period.start row.recordedAt = start
      then 1 else 0 := by
  rw [Quota.count, List.filter_append, List.length_append, List.filter_cons, List.filter_nil]
  split_ifs <;> simp_all [Quota.count]

theorem column_row (keyMeta : Option KeyMeta) :
    q.column (Work.row keyMeta now) = keyMeta.elim "" q.subject := by
  cases q <;> cases keyMeta <;> rfl

theorem count_lt_of_passed {rateLimit : Bool × ℕ}
    (h : (Check.quota q).verdict rateLimit log m now = .passed)
    (hexempt : ¬ q.Exempts (q.subject m)) (hlimit : 0 < q.limit m) :
    (q.count log (q.subject m) (q.period.start now) : ℤ) < q.limit m := by
  unfold Check.verdict Quota.check at h
  dsimp only at h
  rw [if_neg (not_or.mpr ⟨hexempt, not_le.mpr hlimit⟩)] at h
  by_contra hfull
  rw [if_pos (not_lt.mp hfull)] at h
  cases hnext : q.period.next now with
  | none =>
    rw [hnext] at h
    cases h
  | some reset =>
    rw [hnext] at h
    cases h

theorem count_eq_zero {later : Utc} (hpast : ∀ r ∈ log, r.recordedAt.1.instant ≤ now.1.instant)
    (hle : now.1.instant ≤ later.1.instant) (hnew : q.period.start now ≠ q.period.start later) :
    q.count log id (q.period.start later) = 0 := by
  rw [Quota.count, List.length_eq_zero_iff, List.filter_eq_nil_iff]
  intro r hr hrow
  have hstart : q.period.start later = q.period.start r.recordedAt :=
    (of_decide_eq_true hrow).2.symm
  have hsame := Period.start_eq_of_between (hpast r hr) hle hstart
  exact hnew (hsame.trans hstart.symm)

end

def Work.weight (q : Quota) (id : String) : Work → ℕ
  | .idle | .serving none => 0
  | .checking m rest => if q.subject m = id ∧ .quota q ∉ rest then 1 else 0
  | .serving (some m) => if q.subject m = id then 1 else 0

def Work.Limited (q : Quota) (id : String) (limit : ℕ) : Work → Prop
  | .checking m _ => q.subject m = id → 0 < q.limit m ∧ q.limit m ≤ limit
  | .idle | .serving _ => True

structure Bounded {W : Type} [Fintype W] (q : Quota) (id : String) (limit : ℕ) (s : State W) :
    Prop where
  past : ∀ r ∈ s.log, r.recordedAt.1.instant ≤ s.now.1.instant
  within : ∀ start, q.count s.log id start + 1 ≤ limit + Fintype.card W
  present : q.count s.log id (q.period.start s.now) + load (Work.weight q id) s.hand + 1 ≤
    limit + Fintype.card W
  limited : ∀ w, (s.hand w).Limited q id limit
  served : ∀ start, q.count s.served id start = q.count s.log id start + q.count s.lost id start

section

variable {W : Type} [Fintype W] {q : Quota} {id : String} {limit : ℕ} {s t : State W} {e : Event W}
  {w : W} {work : Work} {m : KeyMeta} {rest : List Check} {hashKey : String → String}
  {settings : Settings}

theorem Work.weight_le_one (work : Work) : work.weight q id ≤ 1 := by
  unfold weight
  split
  · exact Nat.zero_le _
  · exact Nat.zero_le _
  · split_ifs <;> decide
  · split_ifs <;> decide

theorem Work.weight_next : (Work.next m rest).weight q id =
    if q.subject m = id ∧ .quota q ∉ rest then 1 else 0 := by
  cases rest with
  | nil => simp [next, weight]
  | cons check rest => rfl

theorem Work.Limited.next
    (h : q.subject m = id → 0 < q.limit m ∧ q.limit m ≤ limit) :
    (Work.next m rest).Limited q id limit := by
  cases rest with
  | nil => trivial
  | cons check rest => exact h

theorem Bounded.start (hlimit : 1 ≤ limit) (now : Utc) :
    Bounded q id limit (State.init now : State W) where
  past := nofun
  within start := by
    simp only [State.init, Quota.count, List.filter_nil, List.length_nil]
    omega
  present := by
    have hload : load (Work.weight q id) (State.init now : State W).hand = 0 :=
      load_eq_zero fun _ => rfl
    rw [hload]
    simp only [State.init, Quota.count, List.filter_nil, List.length_nil]
    omega
  limited _ := trivial
  served _ := rfl

theorem Bounded.clock (h : Bounded q id limit s) (hlimit : 1 ≤ limit) {later : Utc}
    (hle : s.now.1.instant ≤ later.1.instant) : Bounded q id limit { s with now := later } where
  past r hr := (h.past r hr).trans hle
  within := h.within
  limited := h.limited
  served := h.served
  present := by
    dsimp only
    by_cases hsame : q.period.start s.now = q.period.start later
    · rw [← hsame]
      exact h.present
    · have hload : load (Work.weight q id) s.hand ≤ Fintype.card W :=
        load_le_card fun work => work.weight_le_one
      rw [count_eq_zero h.past hle hsame]
      omega

variable [DecidableEq W]

theorem Bounded.take_of_present (h : Bounded q id limit s) (hlimited : work.Limited q id limit)
    (hpresent : q.count s.log id (q.period.start s.now) +
      load (Work.weight q id) (Function.update s.hand w work) + 1 ≤ limit + Fintype.card W) :
    Bounded q id limit (s.take w work) where
  past := h.past
  within := h.within
  present := hpresent
  served := h.served
  limited v := by
    change (Function.update s.hand w work v).Limited q id limit
    by_cases hv : v = w
    · rw [hv, Function.update_self]
      exact hlimited
    · rw [Function.update_of_ne hv]
      exact h.limited v

theorem Bounded.take (h : Bounded q id limit s) (hlimited : work.Limited q id limit)
    (hweight : work.weight q id ≤ (s.hand w).weight q id) :
    Bounded q id limit (s.take w work) := by
  apply h.take_of_present hlimited
  have hload := load_update (Work.weight q id) s.hand w work
  have hpresent := h.present
  omega

theorem Bounded.deny (h : Bounded q id limit s) (decision : PolicyDecision) :
    Bounded q id limit (s.deny w decision) := by
  have hidle : Bounded q id limit (s.take w .idle) := h.take trivial (Nat.zero_le _)
  exact ⟨hidle.past, hidle.within, hidle.present, hidle.limited, hidle.served⟩

theorem Bounded.request (h : Bounded q id limit s) (hid : id ∉ q.reserved)
    {requiredScope : Option String} {keys : ApiKeys} {c : Credentials}
    (hkeys : (Event.request w requiredScope keys c).Limits q id limit) :
    Bounded q id limit (s.request hashKey settings w requiredScope keys c) := by
  unfold State.request
  split
  · exact h.take trivial (Nat.zero_le _)
  · split
    · exact h.deny _
    · rename_i m hm
      have hlimits (hsubject : q.subject m = id) : 0 < q.limit m ∧ q.limit m ≤ limit := by
        obtain ⟨r, hr, rfl⟩ := mem_of_resolveCredentials hm (hsubject ▸ hid)
        exact hkeys r hr hsubject
      split_ifs
      · apply h.take (.next hlimits)
        rw [Work.weight_next, if_neg]
        · exact Nat.zero_le _
        · rintro ⟨hsubject, hskipped⟩
          exact hskipped (mem_checks.mpr ⟨(hlimits hsubject).1,
            Quota.not_exempts (hsubject ▸ hid)⟩)
      · exact h.deny _

theorem Bounded.pass (h : Bounded q id limit s) (hid : id ∉ q.reserved) {check : Check}
    {rateLimit : Bool × ℕ} (hhand : s.hand w = .checking m (check :: rest))
    (hpassed : check.verdict rateLimit s.log m s.now = .passed) :
    Bounded q id limit (s.take w (.next m rest)) := by
  have hlimits := h.limited w
  rw [hhand] at hlimits
  by_cases hchecked : q.subject m = id ∧ check = .quota q
  · obtain ⟨hsubject, rfl⟩ := hchecked
    obtain ⟨hpos, hle⟩ := hlimits hsubject
    have hroom := count_lt_of_passed hpassed (Quota.not_exempts (hsubject ▸ hid)) hpos
    have hload : load (Work.weight q id) (Function.update s.hand w (.next m rest)) ≤
        Fintype.card W := load_le_card fun work => work.weight_le_one
    rw [hsubject] at hroom
    exact h.take_of_present (.next hlimits) (by omega)
  · apply h.take (.next hlimits)
    rw [hhand, Work.weight_next, Work.weight]
    split_ifs with hrest hskipped
    · exact le_rfl
    · refine absurd ⟨hrest.1, fun hquota => ?_⟩ hskipped
      rcases List.mem_cons.mp hquota with hcheck | hquota
      · exact hchecked ⟨hrest.1, hcheck.symm⟩
      · exact hrest.2 hquota
    · exact Nat.zero_le _
    · exact le_rfl

theorem Bounded.finish (h : Bounded q id limit s) (hid : id ∉ q.reserved)
    {keyMeta : Option KeyMeta} (hhand : s.hand w = .serving keyMeta) (logged : Bool) :
    Bounded q id limit (s.finish w (Work.row keyMeta s.now) logged) := by
  have hidle : Bounded q id limit (s.take w .idle) := h.take trivial (Nat.zero_le _)
  have hload := load_update (Work.weight q id) s.hand w .idle
  have hpresent := h.present
  have hzero : Work.idle.weight q id = 0 := rfl
  -- The row is counted where the request was.
  have hone (hrow : q.column (Work.row keyMeta s.now) = id) : (s.hand w).weight q id = 1 := by
    rw [hhand]
    rw [column_row] at hrow
    cases keyMeta with
    | none => exact absurd (hrow ▸ List.mem_cons_self) hid
    | some m => exact if_pos hrow
  cases logged with
  | false =>
    refine ⟨hidle.past, hidle.within, hidle.present, hidle.limited, fun start => ?_⟩
    simp only [State.finish, State.take, Bool.false_eq_true, if_false, count_concat]
    rw [h.served start, Nat.add_assoc]
  | true =>
    refine ⟨?_, fun start => ?_, ?_, hidle.limited, fun start => ?_⟩
    · intro r hr
      rcases List.mem_append.mp hr with hr | hr
      · exact h.past r hr
      · rw [List.mem_singleton.mp hr]
        exact le_rfl
    · have hwithin := h.within start
      simp only [State.finish, if_true, count_concat]
      split_ifs with hrow
      · obtain ⟨hrow, rfl⟩ := hrow
        have hworker := hone hrow
        change q.count s.log id (q.period.start s.now) + 1 + 1 ≤ _
        omega
      · exact hwithin
    · simp only [State.finish, State.take, if_true, count_concat]
      split_ifs with hrow
      · have hworker := hone hrow.1
        omega
      · omega
    · simp only [State.finish, State.take, if_true, count_concat]
      have hserved := h.served start
      omega

theorem Bounded.step (h : Bounded q id limit s) (hid : id ∉ q.reserved) (hlimit : 1 ≤ limit)
    (hstep : Step hashKey settings s e t) (hkeys : e.Limits q id limit) :
    Bounded q id limit t := by
  unfold Step GatewayQuotas.step at hstep
  cases e with
  | clock later =>
    dsimp only at hstep
    split_ifs at hstep with hle
    cases hstep
    exact h.clock hlimit hle
  | request w requiredScope keys c =>
    dsimp only at hstep
    split at hstep
    · cases hstep
      exact h.request hid hkeys
    · cases hstep
    · cases hstep
  | check w rateLimit =>
    dsimp only at hstep
    split at hstep
    · rename_i m check rest hhand
      split at hstep
      · rename_i hpassed
        cases hstep
        exact h.pass hid hhand hpassed
      · cases hstep
        exact h.deny _
      · cases hstep
        exact h.take trivial (Nat.zero_le _)
    · cases hstep
    · cases hstep
    · cases hstep
  | finish w logged =>
    dsimp only at hstep
    split at hstep
    · rename_i m hhand
      cases hstep
      exact h.finish hid hhand logged
    · cases hstep
    · cases hstep

end

/-- However the requests in flight interleave, those of a key or of a namespace that are served in a
day or in a month are at most the quota, one less than can be in flight at once more, and those that
could not be logged. -/
theorem served_le {W : Type} [Fintype W] [DecidableEq W] {q : Quota} {id : String} {limit : ℕ}
    {hashKey : String → String} {settings : Settings} {now : Utc} {es : List (Event W)}
    {t : State W} (hrun : Run (Step hashKey settings) (.init now) es t) (hid : id ∉ q.reserved)
    (hlimit : 1 ≤ limit) (hkeys : ∀ e ∈ es, e.Limits q id limit) (start : Date) :
    q.count t.served id start ≤ limit + (Fintype.card W - 1) + q.count t.lost id start := by
  have hbounded : Bounded q id limit t := by
    generalize hs : (State.init now : State W) = s at hrun
    induction hrun with
    | refl =>
      rw [← hs]
      exact .start hlimit now
    | tail _ hstep ih =>
      exact (ih fun e he => hkeys e (List.mem_append_left _ he)).step hid hlimit hstep
        (hkeys _ (List.mem_append_right _ (List.mem_singleton_self _)))
  have hserved := hbounded.served start
  have hwithin := hbounded.within start
  omega

theorem validDate_lastDay : ValidDate 2026 12 31 := by decide

theorem validClock_noon : ValidClock 12 0 0 0 := by decide

def noon : Utc :=
  ⟨⟨2026, 12, 31, 12, 0, 0, 0, some 0, validDate_lastDay, validClock_noon, validOffset_utc⟩, rfl⟩

def onceADay : KeyMeta := ⟨"id", "n", ["read:scores"], 0, 1, 0, 0, 0, .apiKey⟩

def keys : ApiKeys :=
  ⟨[⟨"id", "k", "n", ["read:scores"], 0, 1, 0, 0, 0, 0, none, none, false, .active, none, none,
    none, "free"⟩], List.pairwise_singleton _ _⟩

/-- Two workers have checked the quota of one request before either has served its request. -/
def bothChecked : State Bool :=
  ((((State.init noon).take false (.checking onceADay [.quota .daily])).take true
    (.checking onceADay [.quota .daily])).take false (.serving (some onceADay))).take true
      (.serving (some onceADay))

def bothServed : State Bool :=
  (bothChecked.finish false (Work.row (some onceADay) noon) true).finish true
    (Work.row (some onceADay) noon) true

theorem run_bothServed : Run (Step id ⟨"a", "c"⟩) (.init noon)
    [.request false (some "read:scores") keys ⟨"", "k", ""⟩,
      .request true (some "read:scores") keys ⟨"", "k", ""⟩, .check false (true, 0),
      .check true (true, 0), .finish false true, .finish true true] bothServed := by
  let start : State Bool := .init noon
  let one := start.take false (.checking onceADay [.quota .daily])
  let two := one.take true (.checking onceADay [.quota .daily])
  let three := two.take false (.serving (some onceADay))
  have hone : Step id ⟨"a", "c"⟩ start
      (.request false (some "read:scores") keys ⟨"", "k", ""⟩) one := rfl
  have htwo : Step id ⟨"a", "c"⟩ one
      (.request true (some "read:scores") keys ⟨"", "k", ""⟩) two := rfl
  have hthree : Step id ⟨"a", "c"⟩ two (.check false (true, 0)) three := rfl
  have hfour : Step id ⟨"a", "c"⟩ three (.check true (true, 0)) bothChecked := rfl
  have hfive : Step id ⟨"a", "c"⟩ bothChecked (.finish false true)
      (bothChecked.finish false (Work.row (some onceADay) noon) true) := rfl
  have hsix : Step id ⟨"a", "c"⟩ (bothChecked.finish false (Work.row (some onceADay) noon) true)
      (.finish true true) bothServed := rfl
  exact (((((Run.single hone).tail htwo).tail hthree).tail hfour).tail hfive).tail hsix

/-- The bound is met. -/
theorem served_le_both : Quota.daily.count bothServed.served "id" noon.1.date = 2 ∧
    Quota.daily.count bothServed.served "id" noon.1.date ≤
      1 + (Fintype.card Bool - 1) + Quota.daily.count bothServed.lost "id" noon.1.date := by
  refine ⟨by decide, served_le run_bothServed (by decide) le_rfl ?_ _⟩
  intro e he
  simp only [List.mem_cons, List.not_mem_nil, or_false] at he
  rcases he with rfl | rfl | rfl | rfl | rfl | rfl
  · simp [Event.Limits, keys, keyMeta, Quota.limit, Quota.subject]
  · simp [Event.Limits, keys, keyMeta, Quota.limit, Quota.subject]
  all_goals trivial

section

variable {W : Type} [DecidableEq W] {q : Quota} {id : String} {s t : State W} {e : Event W}
  {es : List (Event W)} {hashKey : String → String} {settings : Settings}

/-- The clock does not go back, and rows are only added. -/
structure Later (s t : State W) : Prop where
  clock : s.now.1.instant ≤ t.now.1.instant
  log : s.log <+: t.log

theorem State.request_later {w : W} {requiredScope : Option String} {keys : ApiKeys}
    {c : Credentials} : Later s (s.request hashKey settings w requiredScope keys c) := by
  unfold State.request
  split
  · exact ⟨le_rfl, List.prefix_rfl⟩
  · split
    · exact ⟨le_rfl, List.prefix_rfl⟩
    · split_ifs <;> exact ⟨le_rfl, List.prefix_rfl⟩

theorem Later.step (hstep : Step hashKey settings s e t) : Later s t := by
  unfold Step GatewayQuotas.step at hstep
  cases e with
  | clock later =>
    dsimp only at hstep
    split_ifs at hstep with hle
    cases hstep
    exact ⟨hle, List.prefix_rfl⟩
  | request w requiredScope keys c =>
    dsimp only at hstep
    split at hstep <;> cases hstep
    exact State.request_later
  | check w rateLimit =>
    dsimp only at hstep
    split at hstep
    · split at hstep <;> cases hstep <;> exact ⟨le_rfl, List.prefix_rfl⟩
    all_goals cases hstep
  | finish w logged =>
    dsimp only at hstep
    split at hstep <;> cases hstep
    cases logged with
    | false => exact ⟨le_rfl, List.prefix_rfl⟩
    | true => exact ⟨le_rfl, List.prefix_append _ _⟩

theorem Later.run (hrun : Run (Step hashKey settings) s es t) : Later s t := by
  induction hrun with
  | refl => exact ⟨le_rfl, List.prefix_rfl⟩
  | tail _ hstep ih =>
    have hlast := Later.step hstep
    exact ⟨ih.clock.trans hlast.clock, ih.log.trans hlast.log⟩

theorem check_eq_refused {log : List Row} {limit : ℤ} {now : Utc} {resetAt : String} :
    q.check log id limit now = some (false, resetAt) ↔
      (¬ q.Exempts id ∧ 0 < limit) ∧ limit ≤ q.count log id (q.period.start now) ∧
        ∃ reset, q.period.next now = some reset ∧ reset.1.isoformat = resetAt := by
  unfold Quota.check
  split_ifs with hfree hfull
  · refine iff_of_false (by simp) fun h => ?_
    exact h.1.1 (hfree.resolve_right (not_le.mpr h.1.2))
  · rw [Option.map_eq_some_iff]
    simp only [Prod.mk.injEq, true_and]
    exact ⟨fun h => ⟨⟨fun hexempt => hfree (.inl hexempt), not_le.mp fun hle => hfree (.inr hle)⟩,
      hfull, h⟩, fun h => h.2.2⟩
  · exact iff_of_false (by simp) fun h => hfull h.2.1

end

/-- A quota that refuses a request refuses it until the time that the response gives, and from then
on counts only what was logged since that time. -/
theorem refused_until_reset {W : Type} [DecidableEq W] {q : Quota} {id resetAt : String} {limit : ℤ}
    {hashKey : String → String} {settings : Settings} {s t : State W} {es : List (Event W)}
    (hrefused : q.check s.log id limit s.now = some (false, resetAt))
    (hrun : Run (Step hashKey settings) s es t) :
    ∃ reset : Utc, resetAt = reset.1.isoformat ∧ s.now.1.instant < reset.1.instant ∧
      (t.now.1.instant < reset.1.instant →
        q.check t.log id limit t.now = some (false, resetAt)) ∧
      (reset.1.instant ≤ t.now.1.instant → ∀ r ∈ t.log,
        q.period.start r.recordedAt = q.period.start t.now →
          reset.1.instant ≤ r.recordedAt.1.instant) := by
  obtain ⟨hlimited, hfull, reset, hnext, hreset⟩ := check_eq_refused.mp hrefused
  obtain ⟨hclock, new, hnew⟩ := Later.run hrun
  refine ⟨reset, hreset.symm, Period.lt_next hnext, fun hearly => ?_, fun hlate r hr hsame => ?_⟩
  · have hstart : q.period.start t.now = q.period.start s.now :=
      (Period.start_eq_iff hnext hclock).mpr hearly
    refine check_eq_refused.mpr ⟨hlimited, ?_, reset, (Period.next_congr hstart).trans hnext,
      hreset⟩
    have hmore : q.count s.log id (q.period.start s.now) ≤
        q.count t.log id (q.period.start s.now) := by
      rw [Quota.count, Quota.count, ← hnew, List.filter_append, List.length_append]
      exact Nat.le_add_right _ _
    rw [hstart]
    omega
  · by_contra hbefore
    rw [not_le] at hbefore
    have hother : q.period.start t.now ≠ q.period.start s.now := fun hstart =>
      absurd ((Period.start_eq_iff hnext hclock).mp hstart) (not_lt.mpr hlate)
    rcases le_total s.now.1.instant r.recordedAt.1.instant with hafter | hprior
    · exact hother (hsame.symm.trans ((Period.start_eq_iff hnext hafter).mpr hbefore))
    · exact hother (hsame.symm.trans
        (Period.start_eq_of_between hprior hclock hsame.symm).symm)

theorem validDate_newYear : ValidDate 2027 1 1 := by decide

theorem validClock_midnight : ValidClock 0 0 0 0 := by decide

def newYear : Utc :=
  ⟨⟨2027, 1, 1, 0, 0, 0, 0, some 0, validDate_newYear, validClock_midnight, validOffset_utc⟩, rfl⟩

def atNewYear : State Bool := { bothServed with now := newYear }

theorem refused_until_reset_noon :
    ∃ reset : Utc, newYear.1.isoformat = reset.1.isoformat ∧
      bothServed.now.1.instant < reset.1.instant ∧
      (atNewYear.now.1.instant < reset.1.instant →
        Quota.monthly.check atNewYear.log "id" 2 atNewYear.now =
          some (false, newYear.1.isoformat)) ∧
      (reset.1.instant ≤ atNewYear.now.1.instant → ∀ r ∈ atNewYear.log,
        Quota.monthly.period.start r.recordedAt = Quota.monthly.period.start atNewYear.now →
          reset.1.instant ≤ r.recordedAt.1.instant) := by
  have hnext : Quota.monthly.period.next bothServed.now = some newYear := by decide +kernel
  have hrefused : Quota.monthly.check bothServed.log "id" 2 bothServed.now =
      some (false, newYear.1.isoformat) :=
    check_eq_refused.mpr ⟨⟨fun h => h, by decide⟩, by decide, newYear, hnext, rfl⟩
  have hlater : bothServed.now.1.instant ≤ newYear.1.instant := by decide +kernel
  have hclock : Step id ⟨"a", "c"⟩ bothServed (.clock newYear) atNewYear := by
    unfold Step step
    exact if_pos hlater
  exact refused_until_reset hrefused (Run.single hclock)

end GatewayQuotas
