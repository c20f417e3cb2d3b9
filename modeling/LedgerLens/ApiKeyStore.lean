import LedgerLens.ChainSubmissionQueue
import LedgerLens.FallibleRuns
import LedgerLens.HistoricalChunks
import LedgerLens.LabelledRuns
import LedgerLens.SqlTables

/-!
# API keys

`detection/api_key_store.py`: keys under the hashes of their plaintexts, their rotation with a
grace period, and any sequence of operations on one table. Times are microseconds of UTC, in
whose order the stored ISO texts are compared.
-/
namespace ApiKeyStore

open ChainSubmissionQueue (Instant timedelta)
open HistoricalChunks (isoText)
open FallibleRuns LabelledRuns SqlTables

inductive KeyStatus where
  | active
  | rotating
  | revoked
  deriving DecidableEq, Repr

/-- The scopes are a list here, a text with commas in the column. -/
structure ApiKey where
  keyId : String
  keyHash : String
  namespaceId : String
  scopes : List String
  rateLimitPerMinute : ℤ
  dailyQuota : ℤ
  namespaceDailyQuota : ℤ
  monthlyQuota : ℤ
  namespaceMonthlyQuota : ℤ
  createdAt : Instant
  expiresAt : Option String
  lastUsedAt : Option Instant
  revoked : Bool
  status : KeyStatus
  rotatedFrom : Option String
  rotatedTo : Option String
  rotationDeadline : Option Instant
  tier : String
  deriving DecidableEq, Repr

/-- Both the id and the hash are unique. -/
def Clash (a b : ApiKey) : Prop := a.keyId = b.keyId ∨ a.keyHash = b.keyHash

instance : DecidableRel Clash := fun _ _ => inferInstanceAs (Decidable (_ ∨ _))

instance : Std.Symm Clash := ⟨fun _ _ h => h.imp Eq.symm Eq.symm⟩

abbrev ApiKeys := UniqueTable ApiKey Clash

def VALID_SCOPES : List String := ["admin", "read:scores", "write:suppressions"]

structure Quotas where
  dailyQuota : ℤ
  namespaceDailyQuota : ℤ
  monthlyQuota : ℤ
  namespaceMonthlyQuota : ℤ

inductive KeyError where
  | invalidScopes (invalid : List String)
  | notFound (keyId : String)
  | revokedKey (keyId : String)
  | expiredKey (keyId : String)
  | integrity
  deriving DecidableEq, Repr

def KeyError.message : KeyError → Option String
  | .notFound keyId => some s!"API key {keyId} not found"
  | .revokedKey keyId => some s!"Cannot rotate revoked API key {keyId}"
  | .expiredKey keyId => some s!"Cannot rotate expired API key {keyId}"
  | .invalidScopes _ | .integrity => none

/-- The expiry is the text that the caller gave, compared with the text of the time. -/
def ApiKey.Expired (now : Instant) (r : ApiKey) : Prop :=
  ∃ text ∈ r.expiresAt, text ≠ "" ∧ text < isoText now

instance (now : Instant) (r : ApiKey) : Decidable (r.Expired now) :=
  inferInstanceAs (Decidable (∃ text ∈ r.expiresAt, _))

def ApiKey.Revoked (r : ApiKey) : Prop := r.revoked = true ∨ r.status = .revoked

instance (r : ApiKey) : Decidable r.Revoked := inferInstanceAs (Decidable (_ ∨ _))

/-- The rotation deadline has passed. -/
def ApiKey.Lapsed (now : Instant) (r : ApiKey) : Prop :=
  ∃ deadline ∈ r.rotationDeadline, deadline < now

instance (now : Instant) (r : ApiKey) : Decidable (r.Lapsed now) :=
  inferInstanceAs (Decidable (∃ deadline ∈ r.rotationDeadline, _))

def updateKeys (t : ApiKeys) (hit : ApiKey → Prop) [DecidablePred hit] (set : ApiKey → ApiKey)
    (keeps : ∀ r, (set r).keyId = r.keyId ∧ (set r).keyHash = r.keyHash) : ApiKeys :=
  t.update hit set fun a b => by
    simp only [Clash, keeps]
    exact ⟨id, id⟩

section Operations

-- The hash of a plaintext.
variable (hashKey : String → String)

structure Create where
  scopes : List String
  namespaceId : String
  rateLimitPerMinute : ℤ
  expiresAt : Option String
  tier : String
  deriving DecidableEq, Repr

def createApiKey (q : Quotas) (t : ApiKeys) (c : Create) (keyId plaintext : String)
    (now : Instant) : Except KeyError (ApiKey × ApiKeys) :=
  let invalid := c.scopes.filter (· ∉ VALID_SCOPES)
  if invalid ≠ [] then throw (.invalidScopes (invalid.dedup.mergeSort fun a b => decide (a ≤ b)))
  else
    let key : ApiKey := {
      keyId := keyId
      keyHash := hashKey plaintext
      namespaceId := c.namespaceId
      scopes := c.scopes.mergeSort fun a b => decide (a ≤ b)
      rateLimitPerMinute := c.rateLimitPerMinute
      dailyQuota := q.dailyQuota
      namespaceDailyQuota := q.namespaceDailyQuota
      monthlyQuota := q.monthlyQuota
      namespaceMonthlyQuota := q.namespaceMonthlyQuota
      createdAt := now
      expiresAt := c.expiresAt
      lastUsedAt := none
      revoked := false
      status := .active
      rotatedFrom := none
      rotatedTo := none
      rotationDeadline := none
      tier := c.tier }
    match t.insert? key with
    | none => throw .integrity
    | some t' => pure (key, t')

def ApiKey.revoke (r : ApiKey) : ApiKey := { r with revoked := true, status := .revoked }

theorem ApiKey.revoke_keeps (r : ApiKey) :
    r.revoke.keyId = r.keyId ∧ r.revoke.keyHash = r.keyHash := ⟨rfl, rfl⟩

/-- Whether the key was there and not revoked, and the table after. -/
def revokeApiKey (t : ApiKeys) (keyId : String) : Bool × ApiKeys :=
  (t.rows.any fun r => decide (r.keyId = keyId ∧ r.revoked = false),
    updateKeys t (fun r => r.keyId = keyId ∧ r.revoked = false) ApiKey.revoke
      ApiKey.revoke_keeps)

def ApiKey.rotate (deadline : Instant) (newKeyId : String) (r : ApiKey) : ApiKey :=
  { r with status := .rotating, rotationDeadline := some deadline, rotatedTo := some newKeyId }

def ApiKey.replacement (r : ApiKey) (newKeyId newKeyHash : String) (now : Instant) : ApiKey where
  keyId := newKeyId
  keyHash := newKeyHash
  namespaceId := r.namespaceId
  scopes := r.scopes
  rateLimitPerMinute := r.rateLimitPerMinute
  dailyQuota := r.dailyQuota
  namespaceDailyQuota := r.namespaceDailyQuota
  monthlyQuota := r.monthlyQuota
  namespaceMonthlyQuota := r.namespaceMonthlyQuota
  createdAt := now
  expiresAt := r.expiresAt
  lastUsedAt := none
  revoked := false
  status := .active
  rotatedFrom := some r.keyId
  rotatedTo := none
  rotationDeadline := none
  tier := "free"

/-- The replacement, and the table with both keys. A clash of the replacement leaves the whole
transaction undone. -/
def rotateApiKey (t : ApiKeys) (keyId : String) (gracePeriodSeconds : ℤ)
    (newKeyId plaintext : String) (now : Instant) : Except KeyError (ApiKey × ApiKeys) :=
  match t.rows.find? fun r => decide (r.keyId = keyId) with
  | none => throw (.notFound keyId)
  | some row =>
    if row.Revoked then throw (.revokedKey keyId)
    else if row.Expired now then throw (.expiredKey keyId)
    else
      let deadline := now + timedelta gracePeriodSeconds
      let rotated := updateKeys t (fun r => r.keyId = keyId) (ApiKey.rotate deadline newKeyId)
        fun _ => ⟨rfl, rfl⟩
      let replacement := row.replacement newKeyId (hashKey plaintext) now
      match rotated.insert? replacement with
      | none => throw .integrity
      | some t' => pure (replacement, t')

def sweepExpiredApiKeys (t : ApiKeys) (now : Instant) : ℕ × ApiKeys :=
  (t.rows.countP fun r => decide (r.status = .rotating ∧ r.Lapsed now),
    updateKeys t (fun r => r.status = .rotating ∧ r.Lapsed now) ApiKey.revoke
      ApiKey.revoke_keeps)

def ApiKey.use (now : Instant) (r : ApiKey) : ApiKey := { r with lastUsedAt := some now }

theorem ApiKey.use_keeps (now : Instant) (r : ApiKey) :
    (r.use now).keyId = r.keyId ∧ (r.use now).keyHash = r.keyHash := ⟨rfl, rfl⟩

def lookupKey (t : ApiKeys) (plaintext : String) (now : Instant) : Option ApiKey × ApiKeys :=
  match t.rows.find? fun r => decide (r.keyHash = hashKey plaintext ∧ ¬ r.Revoked) with
  | none => (none, t)
  | some row =>
    if row.Expired now then (none, t)
    else if row.status = .rotating ∧ row.Lapsed now then (none, t)
    else (some row, updateKeys t (fun r => r.keyId = row.keyId) (ApiKey.use now)
      (ApiKey.use_keeps now))

def getApiKeyByHash (t : ApiKeys) (keyHash : String) (now : Instant) : Option ApiKey :=
  match t.rows.find? fun r => decide (r.keyHash = keyHash ∧ ¬ r.Revoked) with
  | none => none
  | some row =>
    if row.Expired now then none
    else if row.status = .rotating ∧ row.Lapsed now then none
    else some row

theorem getApiKeyByHash_eq (t : ApiKeys) (plaintext : String) (now : Instant) :
    getApiKeyByHash t (hashKey plaintext) now = (lookupKey hashKey t plaintext now).1 := by
  unfold getApiKeyByHash lookupKey
  split
  · rfl
  · split_ifs <;> rfl

structure Store where
  keys : ApiKeys
  clock : Instant

def Store.initial (clock : Instant) : Store := ⟨.empty, clock⟩

/-- The operations, with what their random sources draw; time also passes without any. -/
inductive Operation where
  | create (c : Create) (keyId plaintext : String)
  | rotate (keyId : String) (gracePeriodSeconds : ℤ) (newKeyId plaintext : String)
  | sweep
  | revoke (keyId : String)
  | lookup (plaintext : String)
  | wait
  deriving DecidableEq

structure Event where
  operation : Operation
  now : Instant
  deriving DecidableEq

def keysAfter (q : Quotas) (t : ApiKeys) (e : Event) : ApiKeys :=
  match e.operation with
  | .create c keyId plaintext =>
    match createApiKey hashKey q t c keyId plaintext e.now with
    | .ok (_, t') => t'
    | .error _ => t
  | .rotate keyId gracePeriodSeconds newKeyId plaintext =>
    match rotateApiKey hashKey t keyId gracePeriodSeconds newKeyId plaintext e.now with
    | .ok (_, t') => t'
    | .error _ => t
  | .sweep => (sweepExpiredApiKeys t e.now).2
  | .revoke keyId => (revokeApiKey t keyId).2
  | .lookup plaintext => (lookupKey hashKey t plaintext e.now).2
  | .wait => t

def next (q : Quotas) (s : Store) (e : Event) : Option Store :=
  if e.now < s.clock then none else some ⟨keysAfter hashKey q s.keys e, e.now⟩

def Steps (q : Quotas) (s : Store) (e : Event) (s' : Store) : Prop := next hashKey q s e = some s'

/-- A rotation is not asked for a key whose deadline has passed, unless it is refused or its grace
period is negative. -/
def Careful (s : Store) (e : Event) : Prop :=
  match e.operation with
  | .rotate keyId gracePeriodSeconds _ _ => ∀ r ∈ s.keys.rows, r.keyId = keyId →
      r.Lapsed e.now → r.Revoked ∨ r.Expired e.now ∨ gracePeriodSeconds < 0
  | _ => True

instance (s : Store) (e : Event) : Decidable (Careful s e) := by
  unfold Careful
  split <;> infer_instance

def CarefulSteps (q : Quotas) (s : Store) (e : Event) (s' : Store) : Prop :=
  Steps hashKey q s e s' ∧ Careful s e

end Operations

section Results

variable {hashKey : String → String} {q : Quotas}

theorem lookupKey_eq_some_iff {t : ApiKeys} {plaintext : String} {now : Instant} {r : ApiKey} :
    (lookupKey hashKey t plaintext now).1 = some r ↔ r ∈ t.rows ∧ r.keyHash = hashKey plaintext ∧
      ¬ r.Revoked ∧ ¬ r.Expired now ∧ ¬ (r.status = .rotating ∧ r.Lapsed now) := by
  unfold lookupKey
  constructor
  · intro h
    split at h
    · cases h
    · rename_i row hrow
      split_ifs at h with hexpired hlapsed
      obtain rfl := Option.some.inj h
      have hhit := List.find?_some hrow
      obtain ⟨hhash, hlive⟩ := of_decide_eq_true hhit
      exact ⟨List.mem_of_find?_eq_some hrow, hhash, hlive, hexpired, hlapsed⟩
  · rintro ⟨hr, hhash, hlive, hexpired, hlapsed⟩
    split
    · rename_i hnone
      exact absurd (decide_eq_true ⟨hhash, hlive⟩) (List.find?_eq_none.mp hnone r hr)
    · rename_i row hrow
      have hhit := List.find?_some hrow
      obtain ⟨hsame, -⟩ := of_decide_eq_true hhit
      obtain rfl : row = r :=
        UniqueTable.eq_of_clash (List.mem_of_find?_eq_some hrow) hr (.inr (hsame.trans hhash.symm))
      rw [if_neg hexpired, if_neg hlapsed]

theorem rotateApiKey_eq_ok {t t' : ApiKeys} {keyId newKeyId plaintext : String} {grace : ℤ}
    {now : Instant} {key : ApiKey}
    (h : rotateApiKey hashKey t keyId grace newKeyId plaintext now = .ok (key, t')) :
    ∃ row ∈ t.rows, row.keyId = keyId ∧ ¬ row.Revoked ∧ ¬ row.Expired now ∧
      key = row.replacement newKeyId (hashKey plaintext) now ∧
      t'.rows = (t.rows.map fun r =>
        if r.keyId = keyId then r.rotate (now + timedelta grace) newKeyId else r) ++ [key] := by
  unfold rotateApiKey at h
  split at h
  · cases h
  · rename_i row hrow
    obtain ⟨hlive, h⟩ := guard_eq_ok.mp h
    obtain ⟨hunexpired, h⟩ := guard_eq_ok.mp h
    dsimp only at h
    split at h
    · cases h
    · rename_i t'' hinsert
      obtain ⟨rfl, rfl⟩ := Prod.mk.inj (Except.ok.inj h)
      have hhit := List.find?_some hrow
      exact ⟨row, List.mem_of_find?_eq_some hrow, of_decide_eq_true hhit, hlive, hunexpired, rfl,
        (UniqueTable.insert?_eq_some hinsert).2⟩

inductive RowStep (e : Event) (r : ApiKey) : ApiKey → Prop where
  | same : RowStep e r r
  | used (now : Instant) : RowStep e r (r.use now)
  | revoked : RowStep e r r.revoke
  | rotated (gracePeriodSeconds : ℤ) (newKeyId plaintext : String)
      (his : e.operation = .rotate r.keyId gracePeriodSeconds newKeyId plaintext)
      (hlive : ¬ r.Revoked) (hunexpired : ¬ r.Expired e.now) :
      RowStep e r (r.rotate (e.now + timedelta gracePeriodSeconds) newKeyId)

theorem RowStep.keyId_eq {e : Event} {r r' : ApiKey} (h : RowStep e r r') : r'.keyId = r.keyId := by
  cases h <;> rfl

/-- The keys are rewritten in place, and keys without a deadline are added. -/
structure Rewrites (e : Event) (t t' : ApiKeys) (f : ApiKey → ApiKey) (added : List ApiKey) :
    Prop where
  rows_eq : t'.rows = t.rows.map f ++ added
  rows : ∀ r ∈ t.rows, RowStep e r (f r)
  added : ∀ r ∈ added, r.rotationDeadline = none

theorem rewrites_refl (e : Event) (t : ApiKeys) : Rewrites e t t id [] where
  rows_eq := by simp
  rows _ _ := .same
  added _ h := nomatch h

theorem rewrites_update {e : Event} {t : ApiKeys} {hit : ApiKey → Prop} [DecidablePred hit]
    {set : ApiKey → ApiKey} (keeps : ∀ r, (set r).keyId = r.keyId ∧ (set r).keyHash = r.keyHash)
    (h : ∀ r ∈ t.rows, hit r → RowStep e r (set r)) :
    Rewrites e t (updateKeys t hit set keeps) (fun r => if hit r then set r else r) [] where
  rows_eq := (List.append_nil _).symm
  rows r hr := by
    by_cases hhit : hit r
    · rw [if_pos hhit]
      exact h r hr hhit
    · rw [if_neg hhit]
      exact .same
  added _ h := nomatch h

theorem Rewrites.insert {e : Event} {t t' t'' : ApiKeys} {f : ApiKey → ApiKey} {key : ApiKey}
    (h : Rewrites e t t' f []) (hinsert : t'.insert? key = some t'')
    (hkey : key.rotationDeadline = none) : Rewrites e t t'' f [key] where
  rows_eq := by rw [(UniqueTable.insert?_eq_some hinsert).2, h.rows_eq, List.append_nil]
  rows := h.rows
  added := List.forall_mem_singleton.mpr hkey

theorem rotateApiKey_rewrites {t t' : ApiKeys} {keyId newKeyId plaintext : String} {grace : ℤ}
    {now : Instant} {key : ApiKey}
    (h : rotateApiKey hashKey t keyId grace newKeyId plaintext now = .ok (key, t')) :
    ∃ f added, Rewrites ⟨.rotate keyId grace newKeyId plaintext, now⟩ t t' f added := by
  obtain ⟨row, hrow, rfl, hlive, hunexpired, rfl, hrows⟩ := rotateApiKey_eq_ok h
  refine ⟨_, _, hrows, ?_, List.forall_mem_singleton.mpr rfl⟩
  intro r hr
  split_ifs with hid
  · obtain rfl : r = row := UniqueTable.eq_of_clash hr hrow (.inl hid)
    exact .rotated grace newKeyId plaintext rfl hlive hunexpired
  · exact .same

theorem keysAfter_rewrites (hashKey : String → String) (q : Quotas) (t : ApiKeys) (e : Event) :
    ∃ f added, Rewrites e t (keysAfter hashKey q t e) f added := by
  obtain ⟨operation, now⟩ := e
  have hidle := rewrites_refl ⟨operation, now⟩ t
  cases operation with
  | create c keyId plaintext =>
    simp only [keysAfter]
    cases hcreate : createApiKey hashKey q t c keyId plaintext now with
    | error => exact ⟨_, _, hidle⟩
    | ok result =>
      obtain ⟨-, hcreate⟩ := guard_eq_ok.mp hcreate
      split at hcreate
      · cases hcreate
      · rename_i t' hinsert
        obtain rfl := Except.ok.inj hcreate
        exact ⟨_, _, hidle.insert hinsert rfl⟩
  | rotate keyId grace newKeyId plaintext =>
    simp only [keysAfter]
    cases hrotate : rotateApiKey hashKey t keyId grace newKeyId plaintext now with
    | error => exact ⟨_, _, hidle⟩
    | ok result => exact rotateApiKey_rewrites hrotate
  | sweep => exact ⟨_, _, rewrites_update ApiKey.revoke_keeps fun _ _ _ => .revoked⟩
  | revoke keyId => exact ⟨_, _, rewrites_update ApiKey.revoke_keeps fun _ _ _ => .revoked⟩
  | lookup plaintext =>
    simp only [keysAfter, lookupKey]
    split
    · exact ⟨_, _, hidle⟩
    · split_ifs
      · exact ⟨_, _, hidle⟩
      · exact ⟨_, _, hidle⟩
      · exact ⟨_, _, rewrites_update (ApiKey.use_keeps now) fun _ _ _ => .used now⟩
  | wait => exact ⟨_, _, hidle⟩

def Dated (t : ApiKeys) : Prop := ∀ r ∈ t.rows, r.rotationDeadline ≠ none → r.status ≠ .active

theorem RowStep.dated {e : Event} {r r' : ApiKey} (h : RowStep e r r')
    (hold : r.rotationDeadline ≠ none → r.status ≠ .active) :
    r'.rotationDeadline ≠ none → r'.status ≠ .active := by
  cases h with
  | same | used => exact hold
  | revoked | rotated => exact fun _ => nofun

theorem Dated.step {s s' : Store} {e : Event} (h : Dated s.keys)
    (hstep : Steps hashKey q s e s') : Dated s'.keys := by
  obtain ⟨-, heq⟩ := Option.ite_none_left_eq_some.mp hstep
  obtain rfl := Option.some.inj heq
  obtain ⟨f, added, hrewrites⟩ := keysAfter_rewrites hashKey q s.keys e
  intro r hr hdeadline
  change r ∈ (keysAfter hashKey q s.keys e).rows at hr
  rw [hrewrites.rows_eq] at hr
  rcases List.mem_append.mp hr with hr | hr
  · obtain ⟨r₀, hr₀, rfl⟩ := List.mem_map.mp hr
    exact (hrewrites.rows r₀ hr₀).dated (h r₀ hr₀) hdeadline
  · exact absurd (hrewrites.added r hr) hdeadline

def Held (keyId : String) (bound : Instant) (t : ApiKeys) : Prop :=
  ∃ r ∈ t.rows, r.keyId = keyId ∧ r.status ≠ .active ∧ r.Lapsed bound

theorem ApiKey.Lapsed.mono {r : ApiKey} {bound later : Instant} (h : r.Lapsed bound)
    (hle : bound ≤ later) : r.Lapsed later := by
  obtain ⟨deadline, hdeadline, hlt⟩ := h
  exact ⟨deadline, hdeadline, hlt.trans_le hle⟩

theorem Held.mono {keyId : String} {bound later : Instant} {t : ApiKeys} (h : Held keyId bound t)
    (hle : bound ≤ later) : Held keyId later t := by
  obtain ⟨r, hr, hid, hstatus, hlapsed⟩ := h
  exact ⟨r, hr, hid, hstatus, hlapsed.mono hle⟩

theorem Dated.held {t : ApiKeys} {key : ApiKey} {bound : Instant} (h : Dated t)
    (hkey : key ∈ t.rows) (hlapsed : key.Lapsed bound) : Held key.keyId bound t := by
  obtain ⟨deadline, hdeadline, -⟩ := id hlapsed
  have hsome : key.rotationDeadline ≠ none := Option.ne_none_iff_exists'.mpr ⟨_, hdeadline⟩
  exact ⟨key, hkey, rfl, h key hkey hsome, hlapsed⟩

/-- A rotation of the key that goes through sets a deadline before the given time. -/
def Keeps (keyId : String) (bound : Instant) (s : Store) (e : Event) : Prop :=
  ∀ r ∈ s.keys.rows, ∀ grace newKeyId plaintext, r.keyId = keyId →
    e.operation = .rotate keyId grace newKeyId plaintext → ¬ r.Revoked → ¬ r.Expired e.now →
      r.Lapsed bound → e.now + timedelta grace < bound

theorem Held.step {keyId : String} {bound : Instant} {s s' : Store} {e : Event}
    (h : Held keyId bound s.keys) (hkeeps : Keeps keyId bound s e)
    (hstep : Steps hashKey q s e s') : Held keyId bound s'.keys := by
  obtain ⟨-, heq⟩ := Option.ite_none_left_eq_some.mp hstep
  obtain rfl := Option.some.inj heq
  obtain ⟨f, added, hrewrites⟩ := keysAfter_rewrites hashKey q s.keys e
  obtain ⟨r, hr, hid, hstatus, hlapsed⟩ := h
  have hrow := hrewrites.rows r hr
  refine ⟨f r, ?_, hrow.keyId_eq.trans hid, ?_⟩
  · change f r ∈ (keysAfter hashKey q s.keys e).rows
    rw [hrewrites.rows_eq]
    exact List.mem_append_left _ (List.mem_map_of_mem hr)
  · generalize f r = r' at hrow
    cases hrow with
    | same | used => exact ⟨hstatus, hlapsed⟩
    | revoked => exact ⟨nofun, hlapsed⟩
    | rotated grace newKeyId plaintext his hlive hunexpired =>
      rw [hid] at his
      have hbefore := hkeeps r hr grace newKeyId plaintext hid his hlive hunexpired hlapsed
      exact ⟨nofun, _, rfl, hbefore⟩

theorem Held.lookup {keyId : String} {now : Instant} {t : ApiKeys} (h : Held keyId now t)
    (plaintext : String) {r : ApiKey}
    (hfound : (lookupKey hashKey t plaintext now).1 = some r) : r.keyId ≠ keyId := by
  intro hid
  obtain ⟨r₀, hr₀, hid₀, hstatus, hpassed⟩ := h
  obtain ⟨hr, -, hlive, -, hcurrent⟩ := lookupKey_eq_some_iff.mp hfound
  obtain rfl : r = r₀ := UniqueTable.eq_of_clash hr hr₀ (.inl (hid.trans hid₀.symm))
  cases hcase : r.status with
  | active => exact hstatus hcase
  | rotating => exact hcurrent ⟨hcase, hpassed⟩
  | revoked => exact hlive (.inr hcase)

theorem steps_clock {s s' : Store} {e : Event} (h : Steps hashKey q s e s') :
    s.clock ≤ e.now ∧ s'.clock = e.now := by
  obtain ⟨hlater, heq⟩ := Option.ite_none_left_eq_some.mp h
  obtain rfl := Option.some.inj heq
  exact ⟨not_lt.mp hlater, rfl⟩

theorem dated_of_run {clock : Instant} {s : Store} {es : List Event}
    (h : Run (Steps hashKey q) (.initial clock) es s) : Dated s.keys := by
  refine h.invariant (I := fun s => Dated s.keys) (fun _ _ _ hold hstep => hold.step hstep) ?_
  exact fun _ hr => absurd hr List.not_mem_nil

theorem kept_deadline_final {clock bound now : Instant} {s s' : Store} {before after : List Event}
    {key found : ApiKey} {plaintext : String}
    (hbefore : Run (Steps hashKey q) (.initial clock) before s)
    (hafter : Run (fun s e s' => Steps hashKey q s e s' ∧ Keeps key.keyId bound s e) s after s')
    (hkey : key ∈ s.keys.rows) (hlapsed : key.Lapsed bound) (hnow : bound ≤ now)
    (hfound : (lookupKey hashKey s'.keys plaintext now).1 = some found) :
    found.keyId ≠ key.keyId := by
  have hheld : Held key.keyId bound s.keys := (dated_of_run hbefore).held hkey hlapsed
  have hend : Held key.keyId bound s'.keys := by
    refine hafter.invariant (I := fun s => Held key.keyId bound s.keys) ?_ hheld
    exact fun _ _ _ hold hstep => hold.step hstep.2 hstep.1
  exact (hend.mono hnow).lookup plaintext hfound

theorem timedelta_intCast (seconds : ℤ) : timedelta seconds = seconds * 1000000 := by
  have hmicros : (seconds : ℚ) * 1000000 = ((seconds * 1000000 : ℤ) : ℚ) := by push_cast; rfl
  unfold timedelta
  simp only [hmicros, Int.floor_intCast, sub_self]
  exact if_pos (.inl (by norm_num))

theorem Careful.keeps {s : Store} {e : Event} {keyId : String} (h : Careful s e) :
    Keeps keyId e.now s e := by
  intro r hr grace newKeyId plaintext hid his hlive hunexpired hlapsed
  simp only [Careful, his] at h
  rcases h r hr hid hlapsed with hrevoked | hexpired | hnegative
  · exact absurd hrevoked hlive
  · exact absurd hexpired hunexpired
  · have hmicros : grace * 1000000 < 0 := by omega
    rw [timedelta_intCast]
    exact add_lt_of_neg_right _ hmicros

theorem rotateApiKey_revives {t t' : ApiKeys} {r key : ApiKey} {grace : ℤ} {now : Instant}
    {newKeyId fresh plaintext : String} (hr : r ∈ t.rows) (hgrace : 0 ≤ grace)
    (h : rotateApiKey hashKey t r.keyId grace newKeyId fresh now = .ok (key, t'))
    (hhash : r.keyHash = hashKey plaintext) :
    ∃ found, (lookupKey hashKey t' plaintext now).1 = some found ∧ found.keyId = r.keyId := by
  obtain ⟨row, hrow, hid, hlive, hunexpired, -, hrows⟩ := rotateApiKey_eq_ok h
  obtain rfl : row = r := UniqueTable.eq_of_clash hrow hr (.inl hid)
  have hlater : ¬ (row.rotate (now + timedelta grace) newKeyId).Lapsed now := by
    rintro ⟨deadline, hdeadline, hlt⟩
    obtain rfl := Option.mem_some.mp hdeadline
    rw [timedelta_intCast] at hlt
    exact absurd hlt (not_lt.mpr (le_add_of_nonneg_right (by positivity)))
  refine ⟨row.rotate (now + timedelta grace) newKeyId, lookupKey_eq_some_iff.mpr ?_, rfl⟩
  refine ⟨?_, hhash, ?_, hunexpired, fun hlapsed => hlater hlapsed.2⟩
  · rw [hrows]
    exact List.mem_append_left _ (List.mem_map.mpr ⟨row, hr, if_pos rfl⟩)
  · rintro (hrevoked | hstatus)
    · exact hlive (.inl hrevoked)
    · cases hstatus

/-- Once its deadline has passed a key never authenticates again, in runs that do not rotate such
a key. -/
theorem rotation_final {clock now : Instant} {s s' : Store} {before after : List Event}
    {key found : ApiKey} {plaintext : String}
    (hbefore : Run (CarefulSteps hashKey q) (.initial clock) before s)
    (hafter : Run (CarefulSteps hashKey q) s after s') (hkey : key ∈ s.keys.rows)
    (hlapsed : key.Lapsed s.clock) (hnow : s'.clock ≤ now)
    (hfound : (lookupKey hashKey s'.keys plaintext now).1 = some found) :
    found.keyId ≠ key.keyId := by
  have hdated : Dated s.keys := dated_of_run (hbefore.mono fun _ _ _ hstep => hstep.1)
  have hend : Held key.keyId s'.clock s'.keys := by
    refine hafter.invariant (I := fun s => Held key.keyId s.clock s.keys) ?_
      (hdated.held hkey hlapsed)
    intro u e v hheld hstep
    obtain ⟨hlater, hclock⟩ := steps_clock hstep.1
    rw [hclock]
    exact (hheld.mono hlater).step hstep.2.keeps hstep.1
  exact (hend.mono hnow).lookup plaintext hfound

end Results

section Examples

def quotas : Quotas := ⟨100000, 0, 0, 0⟩

def rotatedOnce : List Event :=
  [⟨.create ⟨["admin"], "", 60, none, "free"⟩ "a" "ll_a", 0⟩, ⟨.rotate "a" 10 "b" "ll_b", 0⟩,
    ⟨.wait, 11000000⟩]

def sweptAndRotated : List Event :=
  [⟨.lookup "ll_a", 11000000⟩, ⟨.sweep, 12000000⟩, ⟨.rotate "b" 10 "c" "ll_c", 12000000⟩]

theorem rotation_final_swept : ∃ (s' : Store) (found : ApiKey),
    (lookupKey id s'.keys "ll_b" 13000000).1 = some found ∧ found.keyId ≠ "a" := by
  have hrun : (rotatedOnce.foldlM (fun s e => if Careful s e then next id quotas s e else none)
      (.initial 0)).any (fun s => s.keys.rows.any (fun key =>
        decide (key.keyId = "a" ∧ key.Lapsed s.clock)) &&
          (sweptAndRotated.foldlM (fun s e => if Careful s e then next id quotas s e else none)
            s).any fun s' => decide (s'.clock ≤ 13000000) &&
              (lookupKey id s'.keys "ll_b" 13000000).1.isSome) = true := by
    decide +kernel
  obtain ⟨s, hs, hrest⟩ := (Option.any_eq_true _ _).mp hrun
  obtain ⟨hkeys, hrest⟩ := Bool.and_eq_true_iff.mp hrest
  obtain ⟨key, hkey, hlapsed⟩ := List.any_eq_true.mp hkeys
  obtain ⟨hid, hlapsed⟩ := of_decide_eq_true hlapsed
  obtain ⟨s', hs', hrest⟩ := (Option.any_eq_true _ _).mp hrest
  obtain ⟨hclock, hsome⟩ := Bool.and_eq_true_iff.mp hrest
  obtain ⟨found, hfound⟩ := Option.isSome_iff_exists.mp hsome
  refine ⟨s', found, hfound, ?_⟩
  rw [← hid]
  exact rotation_final (run_iff_foldlM.mpr hs) (run_iff_foldlM.mpr hs') hkey hlapsed
    (of_decide_eq_true hclock) hfound

/-- The second rotation comes after the deadline of the first one and before a sweep. -/
theorem rotated_again : ¬ ∀ (q : Quotas) (clock now : Instant) (s s' : Store)
    (before after : List Event) (key found : ApiKey) (plaintext : String),
    Run (Steps id q) (.initial clock) before s → Run (Steps id q) s after s' →
      key ∈ s.keys.rows → key.Lapsed s.clock → s'.clock ≤ now →
        (lookupKey id s'.keys plaintext now).1 = some found → found.keyId ≠ key.keyId := by
  intro h
  have hrun : (rotatedOnce.foldlM (fun s e => if True then next id quotas s e else none)
      (.initial 0)).any (fun s => s.keys.rows.any (fun key =>
        decide (key.keyId = "a" ∧ key.Lapsed s.clock)) &&
          ([⟨.rotate "a" 10 "c" "ll_c", 12000000⟩].foldlM (fun s e => if True then
            next id quotas s e else none) s).any fun s' => decide (s'.clock ≤ 13000000) &&
              (lookupKey id s'.keys "ll_a" 13000000).1.any fun found =>
                decide (found.keyId = "a")) = true := by
    decide +kernel
  obtain ⟨s, hs, hrest⟩ := (Option.any_eq_true _ _).mp hrun
  obtain ⟨hkeys, hrest⟩ := Bool.and_eq_true_iff.mp hrest
  obtain ⟨key, hkey, hlapsed⟩ := List.any_eq_true.mp hkeys
  obtain ⟨hid, hlapsed⟩ := of_decide_eq_true hlapsed
  obtain ⟨s', hs', hrest⟩ := (Option.any_eq_true _ _).mp hrest
  obtain ⟨hclock, hlookup⟩ := Bool.and_eq_true_iff.mp hrest
  obtain ⟨found, hfound, hsame⟩ := (Option.any_eq_true _ _).mp hlookup
  have hbefore := (run_iff_foldlM.mpr hs).mono fun _ _ _ hstep => hstep.1
  have hafter := (run_iff_foldlM.mpr hs').mono fun _ _ _ hstep => hstep.1
  exact h quotas 0 13000000 s s' rotatedOnce _ key found "ll_a" hbefore hafter hkey hlapsed
    (of_decide_eq_true hclock) hfound ((of_decide_eq_true hsame).trans hid.symm)

end Examples

end ApiKeyStore
