import LedgerLens.AuditLog
import LedgerLens.ScoringEvents

/-!
# Custody of scoring events

The signature that `make_scoring_event` puts on an event, and what is left of it once the event is
appended and read back, from its row or from its dictionary. The key is the one of the audit log.
-/
namespace EventCustody

open HashChain IsoTimestamps JsonText ScoringEvents Sha256 StableReplay

def textOrNull : Option String → Json
  | none => .null
  | some s => .string s

def numberOrNull : Option ℤ → Json
  | none => .null
  | some i => .number (.ofInt i)

def signingPayload (e : ScoringEvent) : List Char :=
  (sortKeys (.object (.ofList [
    ("event_id", .string e.eventId),
    ("wallet", .string e.wallet),
    ("namespace_id", .string e.namespaceId),
    ("score", .number (.ofInt e.score)),
    ("previous_score", numberOrNull e.previousScore),
    ("features", .object (.ofList (sortItems e.featureSnapshot))),
    ("model_version", .string e.modelVersion),
    ("triggered_by", .string e.triggeredBy),
    ("actor_id", textOrNull e.actorId),
    ("occurred_at", .string e.occurredAt.isoformat)]))).render .compact

def computeSignature (secret : List UInt8) (e : ScoringEvent) : String :=
  AuditLog.sign secret (signingPayload e)

def sign (secret : List UInt8) (e : ScoringEvent) : ScoringEvent :=
  { e with signature := computeSignature secret e }

def verifySignature (secret : List UInt8) (e : ScoringEvent) : Bool :=
  if e.signature = "" then false else e.signature = computeSignature secret e

/-- The event id is a fresh UUID, and `now` is the time in UTC. -/
def makeScoringEvent (secret : List UInt8) (eventId : String) (now : DateTime)
    (wallet namespaceId : String) (score : ℤ) (previousScore : Option ℤ)
    (featureSnapshot : List (String × Json)) (modelVersion triggeredBy : String)
    (actorId : Option String) : ScoringEvent :=
  sign secret {
    eventId := eventId
    wallet := wallet
    namespaceId := namespaceId
    score := score
    previousScore := previousScore
    featureSnapshot := featureSnapshot
    modelVersion := modelVersion
    triggeredBy := triggeredBy
    actorId := actorId
    chainHash := ""
    occurredAt := now.replaceUtc
    signature := "" }

/-- The event is one that `make_scoring_event` has made. -/
def Made (secret : List UInt8) (e : ScoringEvent) : Prop :=
  ∃ eventId now wallet namespaceId score previousScore featureSnapshot modelVersion triggeredBy
    actorId, e = makeScoringEvent secret eventId now wallet namespaceId score previousScore
      featureSnapshot modelVersion triggeredBy actorId

/-- What `to_dict` gives. -/
structure EventDict where
  eventId : String
  wallet : String
  namespaceId : String
  score : ℤ
  previousScore : Option ℤ
  featureSnapshot : List (String × Json)
  modelVersion : String
  triggeredBy : String
  actorId : Option String
  chainHash : String
  occurredAt : String
  signature : String

def toDict (e : ScoringEvent) : EventDict where
  eventId := e.eventId
  wallet := e.wallet
  namespaceId := e.namespaceId
  score := e.score
  previousScore := e.previousScore
  featureSnapshot := e.featureSnapshot
  modelVersion := e.modelVersion
  triggeredBy := e.triggeredBy
  actorId := e.actorId
  chainHash := e.chainHash
  occurredAt := e.occurredAt.isoformat
  signature := e.signature

/-- `from_row` of a dictionary, whose snapshot is one already. -/
def fromDict (now : DateTime) (row : EventDict) : ScoringEvent where
  eventId := row.eventId
  wallet := row.wallet
  namespaceId := row.namespaceId
  score := row.score
  previousScore := row.previousScore
  featureSnapshot := row.featureSnapshot
  modelVersion := row.modelVersion
  triggeredBy := row.triggeredBy
  actorId := row.actorId
  chainHash := row.chainHash
  occurredAt := readTime now row.occurredAt
  signature := row.signature

/-- The event object once `append` has truncated and chained it in place. -/
def appended (now : DateTime) (maxKeys : ℕ) (s : Store) (e : ScoringEvent) : ScoringEvent :=
  chained ((getLatestEvent now s.rows e.wallet).map ScoringEvent.chainHash) (truncate maxKeys e)

section

variable {secret : List UInt8} {e e' : ScoringEvent} {now : DateTime} {maxKeys : ℕ}
  {s s' : Store}

theorem signingPayload_members (e : ScoringEvent) : signingPayload e =
    (Json.object (.ofList [
      ("actor_id", textOrNull e.actorId),
      ("event_id", .string e.eventId),
      ("features", sortKeys (.object (.ofList (sortItems e.featureSnapshot)))),
      ("model_version", .string e.modelVersion),
      ("namespace_id", .string e.namespaceId),
      ("occurred_at", .string e.occurredAt.isoformat),
      ("previous_score", numberOrNull e.previousScore),
      ("score", .number (.ofInt e.score)),
      ("triggered_by", .string e.triggeredBy),
      ("wallet", .string e.wallet)])).render .compact := by
  have hactor : sortKeys (textOrNull e.actorId) = textOrNull e.actorId := by
    cases e.actorId <;> rfl
  have hprevious : sortKeys (numberOrNull e.previousScore) = numberOrNull e.previousScore := by
    cases e.previousScore <;> rfl
  simp [signingPayload, sortKeys, sortMembers, Members.ofList, sortItems, inKeyOrder, KeyLe,
    List.insertionSort, hactor, hprevious]

theorem length_sortMembers (items : List (String × Json)) :
    (sortMembers (.ofList items)).length = items.length := by
  induction items with
  | nil => rfl
  | cons item items ih => exact congrArg (· + 1) ih

theorem length_of_signingPayload_eq (h : signingPayload e = signingPayload e') :
    e.featureSnapshot.length = e'.featureSnapshot.length := by
  rw [signingPayload_members, signingPayload_members] at h
  have hmembers := Members.ofList_inj (Json.object.inj (Json.render_inj h))
  simp only [List.cons.injEq, Prod.mk.injEq, true_and, sortKeys, Json.object.injEq] at hmembers
  have hsorted := congrArg List.length (Members.ofList_inj hmembers.2.2.1)
  simpa only [sortItems, length_inKeyOrder, length_sortMembers] using hsorted

structure SamePayload (e e' : ScoringEvent) : Prop where
  eventId : e.eventId = e'.eventId
  wallet : e.wallet = e'.wallet
  namespaceId : e.namespaceId = e'.namespaceId
  score : e.score = e'.score
  previousScore : e.previousScore = e'.previousScore
  features : sortItems e.featureSnapshot = sortItems e'.featureSnapshot
  modelVersion : e.modelVersion = e'.modelVersion
  triggeredBy : e.triggeredBy = e'.triggeredBy
  actorId : e.actorId = e'.actorId
  occurredAt : e.occurredAt = e'.occurredAt

theorem SamePayload.signingPayload_eq (h : SamePayload e e') :
    signingPayload e = signingPayload e' := by
  rw [signingPayload, signingPayload, h.eventId, h.wallet, h.namespaceId, h.score, h.previousScore,
    h.features, h.modelVersion, h.triggeredBy, h.actorId, h.occurredAt]

theorem Made.signature (h : Made secret e) : e.signature = computeSignature secret e := by
  obtain ⟨_, _, _, _, _, _, _, _, _, _, rfl⟩ := h
  rfl

theorem Made.aware (h : Made secret e) : e.occurredAt.Aware := by
  obtain ⟨_, _, _, _, _, _, _, _, _, _, rfl⟩ := h
  exact Option.some_ne_none _

theorem computeSignature_ne_empty (secret : List UInt8) (e : ScoringEvent) :
    computeSignature secret e ≠ "" := by
  intro h
  have hlength := congrArg String.length h
  rw [computeSignature, AuditLog.sign, length_hexdigest] at hlength
  cases hlength

theorem Made.verifies (h : Made secret e) : verifySignature secret e = true := by
  rw [verifySignature, h.signature, if_neg (computeSignature_ne_empty secret e)]
  exact decide_eq_true rfl

theorem verifySignature_iff (h : Made secret e) (hsame : SamePayload e' (truncate maxKeys e))
    (hsignature : e'.signature = e.signature) : verifySignature secret e' = true ↔
      computeSignature secret (truncate maxKeys e) = computeSignature secret e := by
  have hne : ¬ e'.signature = "" := by
    rw [hsignature, h.signature]
    exact computeSignature_ne_empty secret e
  rw [verifySignature, if_neg hne, decide_eq_true_iff, hsignature, h.signature, computeSignature,
    computeSignature, computeSignature, hsame.signingPayload_eq]
  exact eq_comm

theorem SamePayload.trans {e'' : ScoringEvent} (h : SamePayload e e') (h' : SamePayload e' e'') :
    SamePayload e e'' where
  eventId := h.eventId.trans h'.eventId
  wallet := h.wallet.trans h'.wallet
  namespaceId := h.namespaceId.trans h'.namespaceId
  score := h.score.trans h'.score
  previousScore := h.previousScore.trans h'.previousScore
  features := h.features.trans h'.features
  modelVersion := h.modelVersion.trans h'.modelVersion
  triggeredBy := h.triggeredBy.trans h'.triggeredBy
  actorId := h.actorId.trans h'.actorId
  occurredAt := h.occurredAt.trans h'.occurredAt

theorem samePayload_chained (prev : Option String) (e : ScoringEvent) :
    SamePayload (chained prev e) e :=
  ⟨rfl, rfl, rfl, rfl, rfl, rfl, rfl, rfl, rfl, rfl⟩

theorem readTime_isoformat_aware (now : DateTime) {time : DateTime} (haware : time.Aware) :
    readTime now time.isoformat = time := by
  rw [readTime_isoformat, if_pos haware]

theorem fromDict_toDict (now : DateTime) (haware : e.occurredAt.Aware) :
    fromDict now (toDict e) = e := by
  rw [fromDict, toDict]
  dsimp only
  rw [readTime_isoformat_aware now haware]

@[simp]
theorem fromRow_occurredAt (now : DateTime) (row : Row) :
    (fromRow now row).occurredAt = readTime now row.occurredAt := rfl

theorem samePayload_fromRow (now : DateTime) (haware : e.occurredAt.Aware) :
    SamePayload (fromRow now (eventRow e)) e where
  eventId := rfl
  wallet := rfl
  namespaceId := rfl
  score := rfl
  previousScore := rfl
  features := by
    have hfeatures : (fromRow now (eventRow e)).featureSnapshot = sortItems e.featureSnapshot :=
      readSnapshot_dumps e.featureSnapshot
    rw [hfeatures]
    exact inKeyOrder_idem _
  modelVersion := rfl
  triggeredBy := rfl
  actorId := rfl
  occurredAt := by
    have htime : (eventRow e).occurredAt = e.occurredAt.isoformat := rfl
    rw [fromRow_occurredAt, htime, readTime_isoformat_aware now haware]

theorem samePayload_signature (e : ScoringEvent) (signature : String) :
    SamePayload { e with signature := signature } e :=
  ⟨rfl, rfl, rfl, rfl, rfl, by dsimp only, rfl, rfl, rfl, rfl⟩

theorem samePayload_appended (now : DateTime) (maxKeys : ℕ) (s : Store) (e : ScoringEvent) :
    SamePayload (appended now maxKeys s e) (truncate maxKeys e) := samePayload_chained _ _

theorem signature_appended (now : DateTime) (maxKeys : ℕ) (s : Store) (e : ScoringEvent) :
    (appended now maxKeys s e).signature = e.signature := by
  rw [appended, chained, truncate]
  split_ifs <;> rfl

theorem truncate_eq_self (h : e.featureSnapshot.length ≤ maxKeys) : truncate maxKeys e = e :=
  if_neg (not_lt.mpr h)

theorem signingPayload_truncate_ne (h : maxKeys < e.featureSnapshot.length) :
    signingPayload (truncate maxKeys e) ≠ signingPayload e := by
  intro hsame
  have hlength := length_of_signingPayload_eq hsame
  rw [truncate, if_pos h, List.length_take] at hlength
  omega

theorem signature_truncate_iff :
    computeSignature secret (truncate maxKeys e) = computeSignature secret e ↔
      e.featureSnapshot.length ≤ maxKeys ∨
        (signingPayload (truncate maxKeys e) ≠ signingPayload e ∧
          computeSignature secret (truncate maxKeys e) = computeSignature secret e) := by
  by_cases hlong : maxKeys < e.featureSnapshot.length
  · rw [or_iff_right (not_le.mpr hlong), and_iff_right (signingPayload_truncate_ne hlong)]
  · have hshort := not_lt.mp hlong
    exact iff_of_true (by rw [truncate_eq_self hshort]) (.inl hshort)

theorem eventRow_mem_of_append (h : append now maxKeys s e = .ok s') :
    eventRow (appended now maxKeys s e) ∈ s'.rows := by
  unfold append at h
  split_ifs at h
  rw [insert_eq_ok h, truncate_wallet]
  exact List.mem_append_right _ (List.mem_singleton_self _)

end

/-- Whatever is read back from the rows of a store is unsigned, so that no made event verifies once
it is appended and read back, although its row keeps all that the signature covers. The dictionary
of the appended event verifies exactly where nothing was truncated, or two different payloads have
one HMAC, and so would the row with its signature. -/
theorem read_back_unsigned (secret : List UInt8) (now : DateTime) (maxKeys : ℕ) (s s' : Store)
    (e : ScoringEvent) (hmade : Made secret e) (happend : append now maxKeys s e = .ok s') :
    verifySignature secret e = true ∧ eventRow (appended now maxKeys s e) ∈ s'.rows ∧
    (∀ row ∈ s'.rows, ∀ now', verifySignature secret (fromRow now' row) = false) ∧
    ∀ now',
      (verifySignature secret (fromDict now' (toDict (appended now maxKeys s e))) = true ↔
        e.featureSnapshot.length ≤ maxKeys ∨
          (signingPayload (truncate maxKeys e) ≠ signingPayload e ∧
            computeSignature secret (truncate maxKeys e) = computeSignature secret e)) ∧
      (verifySignature secret { fromRow now' (eventRow (appended now maxKeys s e)) with
          signature := e.signature } = true ↔
        e.featureSnapshot.length ≤ maxKeys ∨
          (signingPayload (truncate maxKeys e) ≠ signingPayload e ∧
            computeSignature secret (truncate maxKeys e) = computeSignature secret e)) := by
  have happended := samePayload_appended now maxKeys s e
  have haware : (appended now maxKeys s e).occurredAt.Aware := by
    rw [happended.occurredAt, truncate_occurredAt]
    exact hmade.aware
  refine ⟨hmade.verifies, eventRow_mem_of_append happend, fun _ _ _ => rfl, fun now' => ?_⟩
  rw [← signature_truncate_iff]
  constructor
  · rw [fromDict_toDict now' haware]
    exact verifySignature_iff hmade happended (signature_appended now maxKeys s e)
  · exact verifySignature_iff hmade (((samePayload_signature _ _).trans
      (samePayload_fromRow now' haware)).trans happended) rfl

def madeEvent : ScoringEvent :=
  makeScoringEvent [] "1" nine "GA" "default" 80 none [] "v1" "ingestion" none

theorem madeEvent_made : Made [] madeEvent := ⟨_, _, _, _, _, _, _, _, _, _, rfl⟩

theorem exists_append_madeEvent : ∃ s', append ten 50 .empty madeEvent = .ok s' := by
  have hok : (append ten 50 .empty madeEvent).toOption.isSome = true := by decide +kernel
  cases happend : append ten 50 .empty madeEvent with
  | error e =>
    rw [happend] at hok
    cases hok
  | ok s' => exact ⟨s', rfl⟩

theorem read_back_unsigned_madeEvent : ∃ s', append ten 50 .empty madeEvent = .ok s' ∧
    ∀ row ∈ s'.rows, ∀ now', verifySignature [] (fromRow now' row) = false := by
  obtain ⟨s', happend⟩ := exists_append_madeEvent
  have hread := read_back_unsigned [] ten 50 .empty s' madeEvent madeEvent_made happend
  exact ⟨s', happend, hread.2.2.1⟩

/-- The event is signed, accepted and there, and what is read back does not verify. -/
theorem madeEvent_not_verifiable : verifySignature [] madeEvent = true ∧
    ∃ s', append ten 50 .empty madeEvent = .ok s' ∧
      ∃ read ∈ replay ten s' "GA" none 1000, read.eventId = "1" ∧
        verifySignature [] read = false := by
  obtain ⟨s', happend⟩ := exists_append_madeEvent
  have hrows : s'.rows = [eventRow (appended ten 50 .empty madeEvent)] := by
    unfold append at happend
    split_ifs at happend
    exact insert_eq_ok happend
  refine ⟨madeEvent_made.verifies, s', happend,
    fromRow ten (eventRow (appended ten 50 .empty madeEvent)), ?_, rfl, rfl⟩
  rw [replay, hrows]
  exact List.mem_singleton_self _

end EventCustody
