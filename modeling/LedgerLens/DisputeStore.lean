import LedgerLens.ChainSubmissionQueue

/-!
# The dispute store

`detection/dispute_store.py`: disputes of published scores, the votes of the committee on them,
and what an approved dispute leaves in the tables. The commits of a call become durable one by
one, and a call may stop after any of them.
-/
namespace DisputeStore

open ChainSubmissionQueue FallibleRuns LabelledRuns SqlTables

inductive Verdict where
  | approve
  | reject
  deriving DecidableEq, Repr

def Verdict.ofText (text : String) : Option Verdict :=
  if text = "approve" then some .approve else if text = "reject" then some .reject else none

structure Vote where
  voterKeyHash : String
  vote : Verdict
  votedAt : Instant
  deriving DecidableEq, Repr

inductive DisputeStatus where
  | pending
  | approved
  | rejected
  | resolved
  deriving DecidableEq, Repr

def CONFIRMED_FALSE_POSITIVE : String := "score_removed"

structure ScoreDispute where
  disputeId : String
  wallet : String
  assetPair : String
  disputedScore : ℤ
  sorobanTxHash : String
  evidenceUrl : Option String
  submittedAt : Instant
  status : DisputeStatus
  committeeVotes : List Vote
  resolvedAt : Option Instant
  resolution : Option String
  deriving DecidableEq, Repr

structure DisputeRow extends ScoreDispute where
  id : ℕ
  deriving DecidableEq, Repr

structure OverrideRow where
  id : ℕ
  wallet : String
  assetPair : String
  disputeId : String
  txHash : Option String
  status : String
  recordedAt : Instant
  deriving DecidableEq, Repr

structure ScoreRow where
  wallet : String
  assetPair : String
  score : ℤ
  timestamp : Instant
  deriving DecidableEq, Repr

structure OnChainRow where
  wallet : String
  assetPair : String
  txHash : Option String
  submittedAt : Instant
  deriving DecidableEq, Repr

/-- The tables that a dispute reads and writes: `score_disputes`, `score_overrides`,
`pending_chain_submissions`, `risk_scores` and `on_chain_submissions`. -/
structure Db where
  disputes : IdTable DisputeRow DisputeRow.id
  overrides : IdTable OverrideRow OverrideRow.id
  submissions : Table
  riskScores : List ScoreRow
  onChainSubmissions : List OnChainRow
  deriving DecidableEq

inductive DisputeError where
  | valueError (message : String)
  | database (error : DbError)
  deriving DecidableEq, Repr

/-- The states that a call commits, in order, and what it returns or raises in the end. -/
structure Effect where
  commits : List Db
  outcome : Except DisputeError ScoreDispute

structure ParsedUrl where
  scheme : String
  hostname : Option String
  deriving DecidableEq, Repr

/-- `dispute_id` is the identifier drawn, `now` the clock of the rate limit and `ts` that of the
row. -/
structure Submission where
  wallet : String
  assetPair : String
  evidenceUrl : Option String
  disputeId : String
  now : Instant
  ts : Instant
  deriving DecidableEq, Repr

def days (n : ℤ) : ℤ := n * 86400000000

section Submitting

variable (urlparse : String → Except DisputeError ParsedUrl)

def validateEvidenceUrl (evidenceUrl : String) : Except DisputeError Unit := do
  let parsed ← urlparse evidenceUrl
  if parsed.scheme.toLower ≠ "https" then
    throw (.valueError "evidence_url must use https scheme")
  let host := parsed.hostname.getD ""
  if host.startsWith "10." ∨ host.startsWith "127." ∨ host.startsWith "192.168." then
    throw (.valueError "evidence_url must not point to private IP ranges")
  -- What the check of `172.` raises, its own `except ValueError` catches: no such host is refused.
  pure ()

/-- The order of integers that definitions can be evaluated with. -/
local instance timePreorder : Preorder ℤ := Int.instLinearOrder.toPreorder

/-- `ORDER BY … DESC LIMIT 1` among the rows of a wallet and pair. -/
def latest {Row : Type*} (wallet assetPair : Row → String) (time : Row → Instant)
    (rows : List Row) (w p : String) : Option Row :=
  (rows.filter fun r => decide (wallet r = w ∧ assetPair r = p)).argmax time

def newDispute (c : Submission) (disputedScore : ℤ) (txHash : String) : ScoreDispute where
  disputeId := c.disputeId
  wallet := c.wallet
  assetPair := c.assetPair
  disputedScore := disputedScore
  sorobanTxHash := txHash
  evidenceUrl := c.evidenceUrl
  submittedAt := c.ts
  status := .pending
  committeeVotes := []
  resolvedAt := none
  resolution := none

def checkRate (db : Db) (c : Submission) : Except DisputeError Unit :=
  match latest (·.wallet) (·.assetPair) (·.submittedAt) db.disputes.rows c.wallet c.assetPair with
  | none => pure ()
  | some last =>
    if c.now - last.submittedAt < days 7 then
      throw (.valueError "Rate limit: dispute already submitted within 7 days")
    else pure ()

def openDispute (db : Db) (c : Submission) : Except DisputeError ScoreDispute := do
  c.evidenceUrl.forM (validateEvidenceUrl urlparse)
  match (latest OnChainRow.wallet OnChainRow.assetPair OnChainRow.submittedAt
      db.onChainSubmissions c.wallet c.assetPair).bind OnChainRow.txHash with
  | none => throw (.valueError "No on-chain submission found for wallet/asset_pair")
  | some txHash =>
    checkRate db c
    let score := latest ScoreRow.wallet ScoreRow.assetPair ScoreRow.timestamp db.riskScores
      c.wallet c.assetPair
    pure (newDispute c ((score.map ScoreRow.score).getD 0) txHash)

def Db.addDispute (db : Db) (d : ScoreDispute) : Db :=
  { db with disputes := db.disputes.insert (fun id => ⟨d, id⟩) fun _ => rfl }

def submitDispute (db : Db) (c : Submission) : Effect :=
  match openDispute urlparse db c with
  | .error e => ⟨[], .error e⟩
  | .ok d => ⟨[db.addDispute d], .ok d⟩

end Submitting

/-- A vote with the clocks that the call reads: at the vote, at the resolution, at the override
and at the queue. -/
structure Ballot where
  disputeId : String
  voterKeyHash : String
  vote : String
  votedAt : Instant
  resolvedAt : Instant
  ts : Instant
  queuedAt : Instant
  deriving DecidableEq, Repr

def Db.loadDisputeRow (db : Db) (disputeId : String) : Option DisputeRow :=
  db.disputes.rows.find? fun r => decide (r.disputeId = disputeId)

def admitVote (db : Db) (c : Ballot) : Except DisputeError (DisputeRow × List Vote) :=
  match Verdict.ofText c.vote with
  | none => throw (.valueError "vote must be 'approve' or 'reject'")
  | some vote =>
    if c.voterKeyHash.length ≠ 64 then throw (.valueError "voter_key_hash must be 64 hex chars")
    else
      match db.loadDisputeRow c.disputeId with
      | none => throw (.valueError "Dispute not found")
      | some row =>
        if row.status ≠ .pending then
          throw (.valueError "Dispute already resolved and immutable")
        else if ∃ v ∈ row.committeeVotes, v.voterKeyHash = c.voterKeyHash then
          throw (.valueError "Voter has already voted")
        else pure (row, row.committeeVotes ++ [⟨c.voterKeyHash, vote, c.votedAt⟩])

/-- `UPDATE score_disputes SET … WHERE id = ?`. -/
def Db.updateDispute (db : Db) (rowId : ℕ) (set : ScoreDispute → ScoreDispute) : Db :=
  { db with
    disputes := db.disputes.update (fun r => r.id = rowId) (fun r => ⟨set r.toScoreDispute, r.id⟩)
      fun _ => rfl }

def Db.writeVotes (db : Db) (rowId : ℕ) (votes : List Vote) : Db :=
  db.updateDispute rowId fun d => { d with committeeVotes := votes }

def Db.writeDisputeRow (db : Db) (rowId : ℕ) (status : DisputeStatus) (votes : List Vote)
    (resolvedAt : Option Instant) (resolution : Option String) : Db :=
  db.updateDispute rowId fun d =>
    { d with
      status := status
      committeeVotes := votes
      resolvedAt := resolvedAt
      resolution := resolution }

def override (row : DisputeRow) (c : Ballot) (id : ℕ) : OverrideRow where
  id := id
  wallet := row.wallet
  assetPair := row.assetPair
  disputeId := c.disputeId
  txHash := none
  status := "pending"
  recordedAt := c.ts

def corrective (row : DisputeRow) (c : Ballot) (overrideId : ℕ) : Enqueue where
  disputeId := c.disputeId
  overrideId := overrideId
  wallet := row.wallet
  assetPair := row.assetPair
  maxAttempts := DEFAULT_MAX_ATTEMPTS
  priority := DEFAULT_PRIORITY

/-- The transaction that follows the commit of an approval. -/
def Db.recordOverride (db : Db) (row : DisputeRow) (c : Ballot) : Except DbError Db := do
  let overrideId := db.overrides.sequence + 1
  let (_, submissions) ←
    enqueueOverrideSubmission db.submissions (corrective row c overrideId) c.queuedAt
  pure { db with
    overrides := db.overrides.insert (override row c) fun _ => rfl
    submissions := submissions
    riskScores := db.riskScores.filter fun r =>
      ¬ (r.wallet = row.wallet ∧ r.assetPair = row.assetPair) }

section Voting

variable (quorum : ℤ)

def approves (votes : List Vote) : ℕ := votes.countP fun v => v.vote = .approve

def rejects (votes : List Vote) : ℕ := votes.countP fun v => v.vote = .reject

def Confirmed (votes : List Vote) : Prop :=
  quorum ≤ votes.length ∧ 2 * (approves votes + rejects votes) ≤ approves votes * 3

def Upheld (votes : List Vote) : Prop :=
  quorum ≤ votes.length ∧ 2 * (approves votes + rejects votes) ≤ rejects votes * 3

instance (votes : List Vote) : Decidable (Confirmed quorum votes) :=
  inferInstanceAs (Decidable (_ ∧ _))

instance (votes : List Vote) : Decidable (Upheld quorum votes) :=
  inferInstanceAs (Decidable (_ ∧ _))

/-- The status is committed before the override, its submission and the deletion, which a later
commit makes durable together. -/
def castVote (db : Db) (c : Ballot) : Effect :=
  match admitVote db c with
  | .error e => ⟨[], .error e⟩
  | .ok (row, votes) =>
    let voted := db.writeVotes row.id votes
    let result := { row.toScoreDispute with committeeVotes := votes }
    if Confirmed quorum votes then
      let approved := voted.writeDisputeRow row.id .approved votes c.resolvedAt
        CONFIRMED_FALSE_POSITIVE
      match approved.recordOverride row c with
      | .error e => ⟨[voted, approved], .error (.database e)⟩
      | .ok cleared => ⟨[voted, approved, cleared], .ok { result with
          status := .approved
          resolvedAt := c.resolvedAt
          resolution := CONFIRMED_FALSE_POSITIVE }⟩
    else if Upheld quorum votes then
      ⟨[voted, voted.writeDisputeRow row.id .rejected votes c.resolvedAt "upheld"],
        .ok { result with
        status := .rejected
        resolvedAt := c.resolvedAt
        resolution := "upheld" }⟩
    else ⟨[voted], .ok { result with status := .pending }⟩

end Voting

/-- What an approved dispute is to leave behind: its override, the submission that corrects the
score on chain, and no score. -/
structure Cleared (db : Db) (d : ScoreDispute) : Prop where
  overridden : ∃ o ∈ db.overrides.rows, o.disputeId = d.disputeId ∧ o.wallet = d.wallet ∧
    o.assetPair = d.assetPair ∧
    overrideIdempotencyKey d.disputeId o.id ∈ db.submissions.rows.map Row.idempotencyKey
  removed : ∀ r ∈ db.riskScores, ¬ (r.wallet = d.wallet ∧ r.assetPair = d.assetPair)

def AllOrNothing (db : Db) : Prop :=
  ∀ d ∈ db.disputes.rows, d.status = .approved → Cleared db d.toScoreDispute

/-- Nothing is lost from the overrides and the queue, and no score is added. -/
structure Extends (db db' : Db) : Prop where
  overrides : ∀ o ∈ db.overrides.rows, o ∈ db'.overrides.rows
  submissions : ∀ k ∈ db.submissions.rows.map Row.idempotencyKey,
    k ∈ db'.submissions.rows.map Row.idempotencyKey
  riskScores : ∀ r ∈ db'.riskScores, r ∈ db.riskScores

theorem Cleared.mono {db db' : Db} {d : ScoreDispute} (h : Cleared db d) (hext : Extends db db') :
    Cleared db' d := by
  obtain ⟨o, ho, hdispute, hwallet, hpair, hkey⟩ := h.overridden
  constructor
  · exact ⟨o, hext.overrides o ho, hdispute, hwallet, hpair, hext.submissions _ hkey⟩
  · exact fun r hr => h.removed r (hext.riskScores r hr)

theorem enqueue_keys {t t' : Table} {e : Enqueue} {now : Instant} {key : String}
    (h : enqueueOverrideSubmission t e now = .ok (key, t')) :
    overrideIdempotencyKey e.disputeId e.overrideId ∈ t'.rows.map Row.idempotencyKey := by
  obtain ⟨-, h⟩ := guard_eq_ok.mp h
  split_ifs at h with hpresent
  · cases h
    exact hpresent
  · cases h
    exact List.mem_map.mpr ⟨newRow _ e now, List.mem_append_right _ List.mem_cons_self, rfl⟩

theorem loadDisputeRow_eq_some {db : Db} {disputeId : String} {row : DisputeRow}
    (h : db.loadDisputeRow disputeId = some row) :
    row ∈ db.disputes.rows ∧ row.disputeId = disputeId :=
  ⟨List.mem_of_find?_eq_some h, by simpa using List.find?_some h⟩

theorem admitVote_eq_ok {db : Db} {c : Ballot} {row : DisputeRow} {votes : List Vote}
    (h : admitVote db c = .ok (row, votes)) :
    row ∈ db.disputes.rows ∧ row.disputeId = c.disputeId ∧ row.status = .pending := by
  unfold admitVote at h
  split at h
  · cases h
  · obtain ⟨-, h⟩ := guard_eq_ok.mp h
    split at h
    · cases h
    · rename_i hload
      obtain ⟨hpending, h⟩ := guard_eq_ok.mp h
      obtain ⟨-, h⟩ := guard_eq_ok.mp h
      cases h
      obtain ⟨hmem, hid⟩ := loadDisputeRow_eq_some hload
      exact ⟨hmem, hid, not_not.mp hpending⟩

theorem recordOverride_eq_ok {db db' : Db} {row : DisputeRow} {c : Ballot}
    (h : db.recordOverride row c = .ok db') :
    db'.disputes = db.disputes ∧ Extends db db' ∧
      ∀ d : ScoreDispute, d.disputeId = c.disputeId → d.wallet = row.wallet →
        d.assetPair = row.assetPair → Cleared db' d := by
  obtain ⟨⟨key, submissions⟩, henqueue, h⟩ := bind_eq_ok.mp h
  cases h
  refine ⟨rfl, ⟨?_, ?_, ?_⟩, ?_⟩
  · exact fun o ho => List.mem_append_left _ ho
  · intro k hk
    obtain ⟨r, hr, rfl⟩ := List.mem_map.mp hk
    exact List.mem_map_of_mem (mem_enqueue henqueue hr)
  · exact fun r hr => List.mem_of_mem_filter hr
  · intro d hdispute hwallet hpair
    constructor
    · have hnew : override row c (db.overrides.sequence + 1) ∈
          db.overrides.rows ++ [override row c (db.overrides.sequence + 1)] := by simp
      have hkey := enqueue_keys henqueue
      refine ⟨_, hnew, hdispute.symm, hwallet.symm, hpair.symm, ?_⟩
      rw [hdispute]
      exact hkey
    · intro r hr
      rw [hwallet, hpair]
      exact of_decide_eq_true (List.mem_filter.mp hr).2

theorem mem_updateDispute {db : Db} {rowId : ℕ} {set : ScoreDispute → ScoreDispute}
    {d : DisputeRow} : d ∈ (db.updateDispute rowId set).disputes.rows ↔
      ∃ d' ∈ db.disputes.rows, (if d'.id = rowId then ⟨set d'.toScoreDispute, d'.id⟩ else d') = d :=
  List.mem_map

/-- Rewriting a row so that it is not newly approved. -/
theorem AllOrNothing.updateDispute {db : Db} {rowId : ℕ} {set : ScoreDispute → ScoreDispute}
    (h : AllOrNothing db)
    (hset : ∀ d ∈ db.disputes.rows, d.id = rowId → (set d.toScoreDispute).status ≠ .approved) :
    AllOrNothing (db.updateDispute rowId set) := by
  intro d hd happroved
  obtain ⟨d', hd', rfl⟩ := mem_updateDispute.mp hd
  split_ifs at happroved ⊢ with hid
  · exact absurd happroved (hset d' hd' hid)
  · exact ⟨(h d' hd' happroved).overridden, (h d' hd' happroved).removed⟩

theorem AllOrNothing.addDispute {db : Db} {d : ScoreDispute} (h : AllOrNothing db)
    (hd : d.status ≠ .approved) : AllOrNothing (db.addDispute d) := by
  intro d' hd' happroved
  rcases List.mem_append.mp hd' with hd' | hd'
  · exact ⟨(h d' hd' happroved).overridden, (h d' hd' happroved).removed⟩
  · obtain rfl := List.mem_singleton.mp hd'
    exact absurd happroved hd

theorem openDispute_status {urlparse : String → Except DisputeError ParsedUrl} {db : Db}
    {c : Submission} {d : ScoreDispute} (h : openDispute urlparse db c = .ok d) :
    d.status = .pending := by
  obtain ⟨-, -, h⟩ := bind_eq_ok.mp h
  split at h
  · cases h
  · obtain ⟨-, -, h⟩ := bind_eq_ok.mp h
    cases h
    rfl

theorem AllOrNothing.writeVotes {db : Db} {c : Ballot} {row : DisputeRow} {votes : List Vote}
    (h : AllOrNothing db) (hvote : admitVote db c = .ok (row, votes)) :
    AllOrNothing (db.writeVotes row.id votes) := by
  obtain ⟨hrow, -, hpending⟩ := admitVote_eq_ok hvote
  apply h.updateDispute
  intro d hd hid
  obtain rfl := IdTable.eq_of_id_eq hd hrow hid
  simp [hpending]

theorem AllOrNothing.recordOverride {db cleared : Db} {c : Ballot} {row : DisputeRow}
    {votes : List Vote} (h : AllOrNothing db) (hvote : admitVote db c = .ok (row, votes))
    (hrecord : ((db.writeVotes row.id votes).writeDisputeRow row.id .approved votes c.resolvedAt
      CONFIRMED_FALSE_POSITIVE).recordOverride row c = .ok cleared) : AllOrNothing cleared := by
  obtain ⟨hrow, hdispute, hpending⟩ := admitVote_eq_ok hvote
  obtain ⟨hsame, hext, hcleared⟩ := recordOverride_eq_ok hrecord
  intro d hd happroved
  rw [hsame] at hd
  obtain ⟨d₁, hd₁, rfl⟩ := mem_updateDispute.mp hd
  obtain ⟨d₀, hd₀, rfl⟩ := mem_updateDispute.mp hd₁
  by_cases hid : d₀.id = row.id
  · obtain rfl := IdTable.eq_of_id_eq hd₀ hrow hid
    apply hcleared
    · simpa using hdispute
    · simp
    · simp
  · simp only [if_neg hid] at happroved ⊢
    have hdone := h d₀ hd₀ happroved
    have hwritten : Cleared ((db.writeVotes row.id votes).writeDisputeRow row.id .approved votes
        c.resolvedAt CONFIRMED_FALSE_POSITIVE) d₀.toScoreDispute :=
      ⟨hdone.overridden, hdone.removed⟩
    exact hwritten.mono hext

inductive Call where
  | submitDispute (c : Submission)
  | castVote (c : Ballot)
  deriving DecidableEq, Repr

structure Label where
  call : Call
  commits : ℕ
  deriving DecidableEq, Repr

section Runs

variable (urlparse : String → Except DisputeError ParsedUrl) (quorum : ℤ)

def Call.effect (db : Db) : Call → Effect
  | .submitDispute c => DisputeStore.submitDispute urlparse db c
  | .castVote c => DisputeStore.castVote quorum db c

/-- The durable state a call leaves where it stops. -/
def next (db : Db) (l : Label) : Option Db :=
  (db :: (l.call.effect urlparse quorum db).commits)[l.commits]?

def Approves (db : Db) : Call → Prop
  | .submitDispute _ => False
  | .castVote c => ∃ r ∈ (admitVote db c).toOption, Confirmed quorum r.2

instance (db : Db) : (call : Call) → Decidable (Approves quorum db call)
  | .submitDispute _ => inferInstanceAs (Decidable False)
  | .castVote c => inferInstanceAs (Decidable (∃ r ∈ (admitVote db c).toOption, _))

/-- The call does not stop between the commit of an approval and the one after it. -/
def Whole (db : Db) (l : Label) : Prop := Approves quorum db l.call → l.commits ≠ 2

instance (db : Db) (l : Label) : Decidable (Whole quorum db l) :=
  inferInstanceAs (Decidable (_ → _))

end Runs

section Results

variable {urlparse : String → Except DisputeError ParsedUrl} {quorum : ℤ}

theorem next_submitDispute {db db' : Db} {c : Submission} {n : ℕ}
    (h : next urlparse quorum db ⟨.submitDispute c, n⟩ = some db') :
    db' = db ∨ ∃ d, openDispute urlparse db c = .ok d ∧ db' = db.addDispute d := by
  cases n with
  | zero => exact .inl (Option.some.inj h).symm
  | succ n =>
    simp only [next, Call.effect, submitDispute, List.getElem?_cons_succ] at h
    split at h
    · simp at h
    · rename_i d hopen
      obtain rfl : db' = db.addDispute d := List.mem_singleton.mp (List.mem_of_getElem? h)
      exact .inr ⟨d, hopen, rfl⟩

/-- A vote leaves the state as it was, or one of those that it commits. -/
theorem next_castVote {db db' : Db} {c : Ballot} {n : ℕ}
    (h : next urlparse quorum db ⟨.castVote c, n⟩ = some db') :
    db' = db ∨ ∃ row votes, admitVote db c = .ok (row, votes) ∧
      let voted := db.writeVotes row.id votes
      let approved := voted.writeDisputeRow row.id .approved votes c.resolvedAt
        CONFIRMED_FALSE_POSITIVE
      db' = voted ∨ (Confirmed quorum votes ∧ n = 2 ∧ db' = approved) ∨
      (Confirmed quorum votes ∧ approved.recordOverride row c = .ok db') ∨
      db' = voted.writeDisputeRow row.id .rejected votes c.resolvedAt "upheld" := by
  match n with
  | 0 => exact .inl (Option.some.inj h).symm
  | n + 1 =>
    simp only [next, Call.effect, castVote, List.getElem?_cons_succ] at h
    split at h
    · simp at h
    · rename_i row votes hvote
      refine .inr ⟨row, votes, hvote, ?_⟩
      split_ifs at h with hconfirmed hupheld
      · split at h
        · match n with
          | 0 => exact .inl (by simpa using h.symm)
          | 1 => exact .inr (.inl ⟨hconfirmed, rfl, by simpa using h.symm⟩)
          | n + 2 => simp at h
        · rename_i cleared hrecord
          match n with
          | 0 => exact .inl (by simpa using h.symm)
          | 1 => exact .inr (.inl ⟨hconfirmed, rfl, by simpa using h.symm⟩)
          | 2 =>
            obtain rfl : cleared = db' := by simpa using h
            exact .inr (.inr (.inl ⟨hconfirmed, hrecord⟩))
          | n + 3 => simp at h
      · match n with
        | 0 => exact .inl (by simpa using h.symm)
        | 1 => exact .inr (.inr (.inr (by simpa using h.symm)))
        | n + 2 => simp at h
      · match n with
        | 0 => exact .inl (by simpa using h.symm)
        | n + 1 => simp at h

theorem AllOrNothing.next {db db' : Db} {l : Label} (h : AllOrNothing db)
    (hnext : next urlparse quorum db l = some db') (hwhole : Whole quorum db l) :
    AllOrNothing db' := by
  obtain ⟨call, n⟩ := l
  cases call with
  | submitDispute c =>
    rcases next_submitDispute hnext with rfl | ⟨d, hopen, rfl⟩
    · exact h
    · apply h.addDispute
      rw [openDispute_status hopen]
      simp
  | castVote c =>
    rcases next_castVote hnext with rfl | ⟨row, votes, hvote, hcommit⟩
    · exact h
    · rcases hcommit with rfl | ⟨hconfirmed, rfl, -⟩ | ⟨-, hrecord⟩ | rfl
      · exact h.writeVotes hvote
      · have happroves : Approves quorum db (.castVote c) :=
          ⟨(row, votes), by rw [hvote]; rfl, hconfirmed⟩
        exact absurd rfl (hwhole happroves)
      · exact h.recordOverride hvote hrecord
      · apply (h.writeVotes hvote).updateDispute
        intro d _ _
        simp

/-- Where no call stops between the two commits of an approval, every durable state of a run has
its disputes approved in whole or not at all. -/
theorem approved_in_whole {s t : Db} {ls : List Label} (start : s.disputes.rows = [])
    (run : Run (fun db l db' => next urlparse quorum db l = some db' ∧ Whole quorum db l) s ls t) :
    AllOrNothing t := by
  apply run.invariant
  · intro db l db' h hstep
    exact h.next hstep.1 hstep.2
  · intro d hd
    simp [start] at hd

section Examples

def scored (hasPriority : Bool) : Db where
  disputes := .empty
  overrides := .empty
  submissions := ⟨hasPriority, .empty, by decide⟩
  riskScores := [⟨"G", "XLM/USDC", 90, 0⟩]
  onChainSubmissions := [⟨"G", "XLM/USDC", "tx", 0⟩]

def votes (stop : ℕ) : List Label :=
  let approve (c : Char) : Ballot := ⟨"d", .ofList (.replicate 64 c), "approve", 2, 3, 4, 5⟩
  [⟨.submitDispute ⟨"G", "XLM/USDC", none, "d", 1, 1⟩, 1⟩, ⟨.castVote (approve 'a'), 1⟩,
    ⟨.castVote (approve 'b'), 1⟩, ⟨.castVote (approve 'c'), stop⟩]

theorem approved_in_whole_three_votes : ∃ t,
    (∃ d ∈ t.disputes.rows, d.status = .approved) ∧ AllOrNothing t := by
  have hrun : ∃ t ∈ (votes 3).foldlM (fun db l => if Whole 3 db l then
      next (fun _ => .ok ⟨"https", none⟩) 3 db l else none) (scored true),
      ∃ d ∈ t.disputes.rows, d.status = .approved := by
    decide +kernel
  obtain ⟨t, ht, happroved⟩ := hrun
  refine ⟨t, happroved, ?_⟩
  exact approved_in_whole rfl (run_iff_foldlM.mpr ht)

/-- A stop between the commits of the third vote: approved, without override, submission or
deletion, and closed to any later vote. -/
theorem approved_by_half : ¬ ∀ (urlparse : String → Except DisputeError ParsedUrl) (quorum : ℤ)
    (s t : Db) (ls : List Label), s.disputes.rows = [] →
    Run (fun db l db' => next urlparse quorum db l = some db') s ls t → AllOrNothing t := by
  intro h
  have hrun : ∃ t ∈ (votes 2).foldlM (fun db l => if True then
      next (fun _ => .ok ⟨"https", none⟩) 3 db l else none) (scored true),
      (∃ d ∈ t.disputes.rows, d.status = .approved) ∧ t.overrides.rows = [] := by
    decide +kernel
  obtain ⟨t, ht, ⟨d, hd, happroved⟩, hnone⟩ := hrun
  have hsteps := run_iff_foldlM.mpr ht
  have hcleared := h _ 3 (scored true) t (votes 2) rfl (hsteps.mono fun _ _ _ hstep => hstep.1) d hd
    happroved
  obtain ⟨o, ho, -⟩ := hcleared.overridden
  rw [hnone] at ho
  exact List.not_mem_nil ho

end Examples

/-- Without the `priority` column every approval stops half done. -/
theorem castVote_without_priority {db : Db} {c : Ballot} (h : db.submissions.hasPriority = false)
    (happroves : Approves quorum db (.castVote c)) :
    (castVote quorum db c).commits.length = 2 ∧
      (castVote quorum db c).outcome = .error (.database .noSuchColumn) := by
  obtain ⟨⟨row, votes⟩, hvote, hconfirmed⟩ := happroves
  have hvote : admitVote db c = .ok (row, votes) := by
    cases hcase : admitVote db c with
    | error e => simp [hcase, Except.toOption] at hvote
    | ok r => simpa [hcase, Except.toOption] using hvote
  have hrecord : ((db.writeVotes row.id votes).writeDisputeRow row.id .approved votes c.resolvedAt
      CONFIRMED_FALSE_POSITIVE).recordOverride row c = .error .noSuchColumn := by
    have henqueue (e : Enqueue) (now : Instant) :
        enqueueOverrideSubmission db.submissions e now = .error .noSuchColumn := if_pos h
    simp only [Db.recordOverride, Db.writeDisputeRow, Db.writeVotes, Db.updateDispute, henqueue]
    rfl
  simp only [castVote, hvote, if_pos hconfirmed, hrecord]
  exact ⟨rfl, trivial⟩

end Results

end DisputeStore
