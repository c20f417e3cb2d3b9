import LedgerLens.EvmFinality
import LedgerLens.FallibleRuns
import LedgerLens.JsonText
import LedgerLens.Sha256
import LedgerLens.TextBytes

/-!
# Bridge events and their receipts

`ingestion/bridge_loader.py`: bridge events are compared with the logs of the receipts of their
transactions. The node that answers is a parameter, as are the case folding, the reading of
hexadecimal texts, and the checksums and keys of the two chains' libraries.
-/
namespace BridgeReceipts

open ByteStrings Sha256 TextBytes JsonText EvmFinality FallibleRuns

inductive VerificationResult where
  | verified
  | tampered
  | receiptNotFound
  | logIndexOutOfRange
  | skipped
  | disabled
  deriving DecidableEq, Repr

/-- What a call may raise. Only a `ValueError` is caught when an event is read. -/
inductive LoadError where
  | valueError
  | keyError (field : String)
  | indexError
  | rpc (reason : String)
  deriving DecidableEq, Repr

structure Library where
  lower : String → String
  toChecksumAddress : String → Option String
  intOfHex : String → Option ℤ
  bytesFromHex : String → Option (List UInt8)
  stellarPublicKey : List UInt8 → Option String
  tokensSentTopic : String

inductive Quantity where
  | hex (text : String)
  | number (n : ℤ)
  deriving DecidableEq, Repr

/-- A log that `eth_getLogs` returns. -/
structure EventLog where
  address : Option String
  topics : Option (List String)
  data : Option String
  blockNumber : Option Quantity
  blockHash : Option String
  transactionHash : Option String
  logIndex : Option Quantity
  removed : Bool
  deriving DecidableEq, Repr

structure ReceiptLog where
  address : Option String
  topics : Option (List String)
  data : Option String
  blockHash : Option String
  logIndex : ℤ
  deriving DecidableEq, Repr

structure Receipt where
  logs : Option (List ReceiptLog)
  deriving DecidableEq, Repr

abbrev ReceiptCall := String → Except LoadError (Option Receipt)

section Verify

variable (lib : Library)

/-- A negative index counts from the end. -/
def entryAt {α : Type*} (l : List α) (i : ℤ) : Option α :=
  if 0 ≤ i then l[i.toNat]?
  else if -(l.length : ℤ) ≤ i then l[(l.length + i).toNat]? else none

def SameEvent (log : ReceiptLog) (contractAddress : String) (topics : List String)
    (data blockHash : String) : Prop :=
  lib.lower (log.address.getD "") = lib.lower contractAddress ∧ log.topics = some topics ∧
    log.data = some data ∧ log.blockHash = some blockHash

instance (log : ReceiptLog) (contractAddress : String) (topics : List String)
    (data blockHash : String) :
    Decidable (SameEvent lib log contractAddress topics data blockHash) :=
  inferInstanceAs (Decidable (_ ∧ _))

def verifyEventViaReceipt (rpc : ReceiptCall) (txHash : String) (logIndex : ℤ)
    (contractAddress : String) (topics : List String) (data blockHash : String) :
    Except LoadError VerificationResult :=
  match rpc txHash with
  | .error _ => .ok .receiptNotFound
  | .ok none => .ok .receiptNotFound
  | .ok (some receipt) =>
    let logs := receipt.logs.getD []
    if logs.length ≤ logIndex then .ok .logIndexOutOfRange
    else
      match entryAt logs logIndex with
      | none => .error .indexError
      | some log =>
        if SameEvent lib log contractAddress topics data blockHash then .ok .verified
        else .ok .tampered

def computeCanonicalEventHash (chainId : ℤ) (contractAddress : String) (topics : List String)
    (data : String) (blockNumber : ℤ) (txHash : String) (logIndex : ℤ) : String :=
  let text (s : String) : Json := .string (lib.lower s)
  -- The keys in their sorted order.
  let canonical : Json := .object (.ofList
    [("address", text contractAddress), ("block_number", .number (.ofInt blockNumber)),
      ("chain_id", .number (.ofInt chainId)), ("data", text data),
      ("log_index", .number (.ofInt logIndex)),
      ("topics", .array (topics.foldr (fun t rest => .cons (text t) rest) .nil)),
      ("tx_hash", text txHash)])
  hexdigest (sha256 (utf8 (.ofList (canonical.render .compact))))

structure BridgeTransfer where
  chain : String
  direction : String
  evmWallet : String
  stellarWallet : String
  amountUsd : Option ℤ
  token : String
  txHashEvm : String
  txHashStellar : Option String
  timestamp : ℤ
  canonicalHash : String
  verificationStatus : VerificationResult
  verifiedAt : Option ℤ
  logIndex : ℤ
  topics : List String
  data : String
  blockHash : String
  deriving DecidableEq, Repr

structure Loader where
  chain : String
  contractAddress : String
  chainId : ℤ
  finality : FinalityTracker

/-- The answers of the node, and the clock. -/
structure Node where
  latestBlock : Except LoadError ℤ
  blockHash : ℤ → Except LoadError (Option String)
  blockTimestamp : ℤ → Except LoadError ℤ
  logs : ℤ → ℤ → Except LoadError (List EventLog)
  receipt : ReceiptCall
  now : ℤ

def valueOr {α : Type} (e : LoadError) (v : Option α) : Except LoadError α :=
  match v with
  | some v => .ok v
  | none => .error e

def strip0x (s : String) : List Char :=
  if "0x".toList <+: s.toList then s.toList.drop 2 else s.toList

def lastChars (n : ℕ) (l : List Char) : List Char := l.drop (l.length - n)

def quantity (q : Option Quantity) : Except LoadError ℤ :=
  match q with
  | none => .ok 0
  | some (.number n) => .ok n
  | some (.hex text) => valueOr .valueError (lib.intOfHex text)

def decodeBytes32ToStellar (recipientBytes : List UInt8) : Except LoadError String :=
  if recipientBytes.length ≠ 32 then .error .valueError
  else valueOr .valueError (lib.stellarPublicKey recipientBytes)

def parseTokensSent (loader : Loader) (node : Node) (log : EventLog) :
    Except LoadError BridgeTransfer := do
  let topics ← valueOr .valueError log.topics
  let senderRaw ← valueOr .valueError topics[1]?
  let sender ← valueOr .valueError
    (lib.toChecksumAddress ("0x" ++ .ofList (lastChars 40 (strip0x senderRaw))))
  let data ← valueOr .valueError log.data
  let dataHex := strip0x data
  if dataHex.length < 128 then throw .valueError
  let recipientBytes ← valueOr .valueError (lib.bytesFromHex (.ofList (dataHex.take 64)))
  let stellarWallet ← decodeBytes32ToStellar lib recipientBytes
  let blockNum ← quantity lib log.blockNumber
  let blockTs ← if blockNum = 0 then pure node.now else node.blockTimestamp blockNum
  let logIndex ← quantity lib log.logIndex
  let txHash ← valueOr (.keyError "transactionHash") log.transactionHash
  let canonicalHash := computeCanonicalEventHash lib loader.chainId
    (log.address.getD loader.contractAddress) topics data blockNum txHash logIndex
  return {
    chain := loader.chain
    direction := "evm_to_stellar"
    evmWallet := sender
    stellarWallet := stellarWallet
    amountUsd := none
    token := "USDC"
    txHashEvm := txHash
    txHashStellar := none
    timestamp := blockTs
    canonicalHash := canonicalHash
    verificationStatus := .disabled
    verifiedAt := none
    logIndex := logIndex
    topics := topics
    data := data
    blockHash := log.blockHash.getD "" }

/-- What the loop over the logs has done: `tampered` are on the dead letter queue, and `drawn`
random numbers are used up. -/
structure Progress where
  accepted : List BridgeTransfer
  tampered : List BridgeTransfer
  finality : FinalityTracker
  drawn : ℕ

def Progress.accept (s : Progress) (log : EventLog) (transfer : BridgeTransfer) :
    Except LoadError Progress := do
  let blockNum ← quantity lib log.blockNumber
  return { s with
    accepted := s.accepted ++ [transfer]
    finality := s.finality.record blockNum transfer.blockHash transfer.txHashEvm }

/-- Numbers that `random` draws. -/
structure Draws where
  draw : ℕ → ℚ
  lt_one : ∀ n, draw n < 1

def verifyTransfer (loader : Loader) (node : Node) (transfer : BridgeTransfer) :
    Except LoadError VerificationResult :=
  verifyEventViaReceipt lib node.receipt transfer.txHashEvm transfer.logIndex
    loader.contractAddress transfer.topics transfer.data transfer.blockHash

def admitTransfer (loader : Loader) (node : Node) (sampleRate : ℚ) (draws : Draws) (s : Progress)
    (log : EventLog) (transfer : BridgeTransfer) : Except LoadError Progress :=
  if 0 < sampleRate then
    let chosen := draws.draw s.drawn < sampleRate
    let s := { s with drawn := s.drawn + 1 }
    if chosen then do
      let result ← verifyTransfer lib loader node transfer
      let transfer := { transfer with verificationStatus := result, verifiedAt := some node.now }
      if result = .tampered then return { s with tampered := s.tampered ++ [transfer] }
      else s.accept lib log transfer
    else s.accept lib log { transfer with verificationStatus := .skipped }
  else if sampleRate = 0 then s.accept lib log { transfer with verificationStatus := .disabled }
  else s.accept lib log { transfer with verificationStatus := .skipped }

def processLog (loader : Loader) (node : Node) (sampleRate : ℚ) (draws : Draws) (s : Progress)
    (log : EventLog) : Except LoadError Progress :=
  if log.removed then .ok s
  else
    match parseTokensSent lib loader node log with
    | .error .valueError => .ok s
    | .error e => .error e
    | .ok transfer => admitTransfer lib loader node sampleRate draws s log transfer

structure Loaded where
  accepted : List BridgeTransfer
  tampered : List BridgeTransfer
  retractedTxHashes : Finset String
  finality : FinalityTracker

def getLogs (node : Node) (finality : FinalityTracker) (latestHead lookbackBlocks : ℤ) :
    Except LoadError (List EventLog) :=
  let latest := finality.finalizedHead latestHead
  node.logs (max 0 (latest - lookbackBlocks)) latest

def loadTransfers (loader : Loader) (node : Node) (sampleRate : ℚ) (lookbackBlocks : ℤ)
    (draws : Draws) : Except LoadError Loaded := do
  let latestHead ← node.latestBlock
  let checked := loader.finality.checkReorgs lib.lower latestHead node.blockHash
  let orphaned ← checked.2
  let logs ← getLogs node checked.1 latestHead lookbackBlocks
  let s ← logs.foldlM (processLog lib loader node sampleRate draws) ⟨[], [], checked.1, 0⟩
  return {
    accepted := s.accepted
    tampered := s.tampered
    retractedTxHashes := orphaned.foldr (fun o hashes => o.2 ∪ hashes) ∅
    finality := s.finality }

end Verify

structure BlockLog where
  address : String
  topics : List String
  data : String
  deriving DecidableEq, Repr

structure Transaction where
  hash : String
  logs : List BlockLog
  deriving DecidableEq, Repr

structure Block where
  hash : String
  transactions : List Transaction
  hashes_nodup : (transactions.map Transaction.hash).Nodup

def logCount (transactions : List Transaction) : ℕ :=
  (transactions.map fun tx => tx.logs.length).sum

/-- The receipt of a transaction after `offset` logs of its block. -/
def Block.receiptAt (b : Block) (offset : ℕ) (tx : Transaction) : Receipt where
  logs := some (tx.logs.zipIdx.map fun l =>
    ⟨some l.1.address, some l.1.topics, some l.1.data, some b.hash, (offset + l.2 : ℕ)⟩)

def Serves (rpc : ReceiptCall) (b : Block) : Prop :=
  ∀ before tx after, b.transactions = before ++ tx :: after →
    rpc tx.hash = .ok (some (b.receiptAt (logCount before) tx))

section Genuine

variable (lib : Library) (contractAddress : String)

/-- The log is what `eth_getLogs` looks for. -/
def BlockLog.IsBridgeEvent (l : BlockLog) : Prop :=
  lib.lower l.address = lib.lower contractAddress ∧ l.topics.head? = some lib.tokensSentTopic

def AllVerified (rpc : ReceiptCall) (b : Block) : Prop :=
  ∀ before tx after (i : ℕ) l, b.transactions = before ++ tx :: after → tx.logs[i]? = some l →
    l.IsBridgeEvent lib contractAddress →
      verifyEventViaReceipt lib rpc tx.hash (logCount before + i : ℕ) contractAddress l.topics
        l.data b.hash = .ok .verified

variable {lib contractAddress} {rpc : ReceiptCall} {b : Block}

theorem entryAt_natCast {α : Type*} (l : List α) (i : ℕ) : entryAt l i = l[i]? := by
  rw [entryAt, if_pos (Int.natCast_nonneg i), Int.toNat_natCast]

theorem verify_eq_verified_iff (hserves : Serves rpc b) {before after : List Transaction}
    {tx : Transaction} (htx : b.transactions = before ++ tx :: after) (i : ℕ) (topics : List String)
    (data : String) :
    verifyEventViaReceipt lib rpc tx.hash i contractAddress topics data b.hash = .ok .verified ↔
      ∃ l, tx.logs[i]? = some l ∧ lib.lower l.address = lib.lower contractAddress ∧
        l.topics = topics ∧ l.data = data := by
  rw [verifyEventViaReceipt, hserves before tx after htx]
  simp only [Block.receiptAt, Option.getD_some, List.length_map, List.length_zipIdx, Nat.cast_le,
    entryAt_natCast, List.getElem?_map, List.getElem?_zipIdx]
  by_cases hlength : tx.logs.length ≤ i
  · rw [if_pos hlength, List.getElem?_eq_none hlength]
    simp
  · rw [if_neg hlength, List.getElem?_eq_getElem (not_le.mp hlength)]
    simp only [Option.map_some, SameEvent, Option.getD_some, Option.some.injEq, and_true,
      exists_eq_left']
    split_ifs with hsame
    · exact iff_of_true rfl hsame
    · exact iff_of_false (by simp) hsame

theorem exists_last {α : Type*} {P : α → Prop} {l : List α} (h : ∃ a ∈ l, P a) :
    ∃ before a after, l = before ++ a :: after ∧ P a ∧ ∀ a' ∈ after, ¬ P a' := by
  induction l with
  | nil =>
    obtain ⟨a, ha, -⟩ := h
    cases ha
  | cons a l ih =>
    by_cases hl : ∃ a' ∈ l, P a'
    · obtain ⟨before, a', after, rfl, ha', hafter⟩ := ih hl
      exact ⟨a :: before, a', after, rfl, ha', hafter⟩
    · obtain ⟨a', ha', hP⟩ := h
      rcases List.mem_cons.mp ha' with rfl | ha'
      · exact ⟨[], a', l, rfl, hP, fun x hx hPx => hl ⟨x, hx, hPx⟩⟩
      · exact absurd ⟨a', ha', hP⟩ hl

theorem allVerified_iff (hserves : Serves rpc b) : AllVerified lib contractAddress rpc b ↔
    ∀ before tx after, b.transactions = before ++ tx :: after →
      (∃ l ∈ tx.logs, l.IsBridgeEvent lib contractAddress) → logCount before = 0 := by
  constructor
  · intro hverified before tx after htx hevent
    obtain ⟨first, l, rest, hlogs, hl, hlast⟩ := exists_last hevent
    have hget : tx.logs[first.length]? = some l := by
      rw [hlogs, List.getElem?_append_right le_rfl, Nat.sub_self, List.getElem?_cons_zero]
    have hevent := hverified before tx after first.length l htx hget hl
    obtain ⟨l', hget', haddress, htopics, -⟩ := (verify_eq_verified_iff hserves htx _ _ _).mp hevent
    -- A log further on that equals the last event would be an event after it.
    by_contra hoffset
    have hlater : l' ∈ rest := by
      rw [hlogs, List.getElem?_append_right (by omega),
        show logCount before + first.length - first.length = logCount before - 1 + 1 by omega,
        List.getElem?_cons_succ] at hget'
      exact List.mem_of_getElem? hget'
    exact hlast l' hlater ⟨haddress, htopics ▸ hl.2⟩
  · intro hfirst before tx after i l htx hget hl
    rw [hfirst before tx after htx ⟨l, List.mem_of_getElem? hget, hl⟩, Nat.zero_add]
    exact (verify_eq_verified_iff hserves htx i _ _).mpr ⟨l, hget, hl.1, rfl, rfl⟩

end Genuine

section Accepted

variable (lib : Library) (loader : Loader) (node : Node)

def Listed (t : BridgeTransfer) : Prop :=
  ∃ receipt, node.receipt t.txHashEvm = .ok (some receipt) ∧ ∃ log ∈ receipt.logs.getD [],
    log.logIndex = t.logIndex ∧ SameEvent lib log loader.contractAddress t.topics t.data t.blockHash

/-- The index is a position in the receipt of the transaction, where another log stands. -/
def Caught (t : BridgeTransfer) : Prop :=
  ∃ receipt, node.receipt t.txHashEvm = .ok (some receipt) ∧
    t.logIndex < (receipt.logs.getD []).length ∧
      ∃ log, entryAt (receipt.logs.getD []) t.logIndex = some log ∧
        ¬ SameEvent lib log loader.contractAddress t.topics t.data t.blockHash

def ReadAs (log : EventLog) (t : BridgeTransfer) : Prop :=
  log.removed = false ∧ parseTokensSent lib loader node log = .ok t

def stamped (t : BridgeTransfer) (result : VerificationResult) : BridgeTransfer :=
  { t with verificationStatus := result, verifiedAt := some node.now }

variable {lib loader node}

theorem verifyTransfer_eq_tampered_iff {t : BridgeTransfer} :
    verifyTransfer lib loader node t = .ok .tampered ↔ Caught lib loader node t := by
  rw [verifyTransfer, verifyEventViaReceipt, Caught]
  cases node.receipt t.txHashEvm with
  | error e => simp
  | ok receipt =>
    cases receipt with
    | none => simp
    | some receipt =>
      simp only [Except.ok.injEq, Option.some.injEq, exists_eq_left']
      by_cases hlength : ((receipt.logs.getD []).length : ℤ) ≤ t.logIndex
      · rw [if_pos hlength]
        simp [not_lt.mpr hlength]
      rw [if_neg hlength, and_iff_right (not_le.mp hlength)]
      cases entryAt (receipt.logs.getD []) t.logIndex with
      | none => simp
      | some log =>
        simp only [Option.some.injEq, exists_eq_left']
        split_ifs with hsame <;> simp [hsame]

theorem admitTransfer_eq_ok {draws : Draws} {s s' : Progress} {log : EventLog} {t : BridgeTransfer}
    (h : admitTransfer lib loader node 1 draws s log t = .ok s') :
    ∃ result, verifyTransfer lib loader node t = .ok result ∧ s'.accepted =
      if result = .tampered then s.accepted else s.accepted ++ [stamped node t result] := by
  rw [admitTransfer, if_pos (by decide)] at h
  simp only at h
  rw [if_pos (draws.lt_one _)] at h
  obtain ⟨result, hresult, h⟩ := bind_eq_ok.mp h
  refine ⟨result, hresult, ?_⟩
  split_ifs at h ⊢ with htampered
  · cases h
    rfl
  · rw [Progress.accept] at h
    obtain ⟨blockNum, -, h⟩ := bind_eq_ok.mp h
    cases h
    rfl

def AcceptedFrom (lib : Library) (loader : Loader) (node : Node) (log : EventLog)
    (t : BridgeTransfer) : Prop :=
  ∃ read result, ReadAs lib loader node log read ∧
    verifyTransfer lib loader node read = .ok result ∧ result ≠ .tampered ∧
      t = stamped node read result

theorem ReadAs.unique {log : EventLog} {read read' : BridgeTransfer}
    (h : ReadAs lib loader node log read) (h' : ReadAs lib loader node log read') : read' = read :=
  Except.ok.inj (h'.2.symm.trans h.2)

theorem acceptedFrom_iff {log : EventLog} {read t : BridgeTransfer} {result : VerificationResult}
    (hread : ReadAs lib loader node log read)
    (hresult : verifyTransfer lib loader node read = .ok result) :
    AcceptedFrom lib loader node log t ↔ result ≠ .tampered ∧ t = stamped node read result := by
  constructor
  · rintro ⟨read', result', hread', hresult', hpassed, rfl⟩
    obtain rfl := hread.unique hread'
    obtain rfl := Except.ok.inj (hresult'.symm.trans hresult)
    exact ⟨hpassed, rfl⟩
  · rintro ⟨hpassed, rfl⟩
    exact ⟨read, result, hread, hresult, hpassed, rfl⟩

theorem processLog_eq_ok {draws : Draws} {s s' : Progress} {log : EventLog}
    (h : processLog lib loader node 1 draws s log = .ok s') :
    (∀ read, ReadAs lib loader node log read →
      ∃ result, verifyTransfer lib loader node read = .ok result) ∧
      ∀ t, t ∈ s'.accepted ↔ t ∈ s.accepted ∨ AcceptedFrom lib loader node log t := by
  have hskip (hnone : ∀ read, ¬ ReadAs lib loader node log read) (heq : s = s') :
      (∀ read, ReadAs lib loader node log read →
        ∃ result, verifyTransfer lib loader node read = .ok result) ∧
        ∀ t, t ∈ s'.accepted ↔ t ∈ s.accepted ∨ AcceptedFrom lib loader node log t := by
    refine ⟨fun read hread => absurd hread (hnone read), fun t => ?_⟩
    rw [← heq, or_iff_left]
    rintro ⟨read, -, hread, -⟩
    exact hnone read hread
  rw [processLog] at h
  by_cases hremoved : log.removed = true
  · rw [if_pos hremoved] at h
    exact hskip (fun read hread => by rw [hread.1] at hremoved; cases hremoved) (Except.ok.inj h)
  rw [if_neg hremoved] at h
  cases hparse : parseTokensSent lib loader node log with
  | error e =>
    rw [hparse] at h
    have hnone (read : BridgeTransfer) : ¬ ReadAs lib loader node log read := by
      rintro ⟨-, hread⟩
      rw [hparse] at hread
      cases hread
    cases e with
    | valueError => exact hskip hnone (Except.ok.inj h)
    | keyError field => cases h
    | indexError => cases h
    | rpc reason => cases h
  | ok read =>
    rw [hparse] at h
    have hread : ReadAs lib loader node log read := ⟨Bool.eq_false_iff.mpr hremoved, hparse⟩
    obtain ⟨result, hresult, haccepted⟩ := admitTransfer_eq_ok h
    refine ⟨fun read' hread' => ⟨result, hread.unique hread' ▸ hresult⟩, fun t => ?_⟩
    rw [haccepted, acceptedFrom_iff hread hresult]
    split_ifs with htampered
    · simp [htampered]
    · simp [htampered]

theorem foldlM_processLog {draws : Draws} {logs : List EventLog} {s s' : Progress}
    (h : logs.foldlM (processLog lib loader node 1 draws) s = .ok s') :
    (∀ log ∈ logs, ∀ read, ReadAs lib loader node log read →
      ∃ result, verifyTransfer lib loader node read = .ok result) ∧
      ∀ t, t ∈ s'.accepted ↔
        t ∈ s.accepted ∨ ∃ log ∈ logs, AcceptedFrom lib loader node log t := by
  induction logs generalizing s with
  | nil =>
    cases h
    exact ⟨fun _ hlog => absurd hlog List.not_mem_nil, fun t => by simp⟩
  | cons log logs ih =>
    rw [List.foldlM_cons] at h
    obtain ⟨s₁, hstep, h⟩ := bind_eq_ok.mp h
    obtain ⟨hread, haccepted⟩ := processLog_eq_ok hstep
    obtain ⟨hreads, hrest⟩ := ih h
    refine ⟨List.forall_mem_cons.mpr ⟨hread, hreads⟩, fun t => ?_⟩
    rw [hrest, haccepted, or_assoc]
    simp only [List.mem_cons, exists_eq_or_imp]

def Gets (lib : Library) (loader : Loader) (node : Node) (lookbackBlocks : ℤ)
    (logs : List EventLog) : Prop :=
  ∃ latestHead, node.latestBlock = .ok latestHead ∧
    getLogs node (loader.finality.checkReorgs lib.lower latestHead node.blockHash).1 latestHead
      lookbackBlocks = .ok logs

theorem loadTransfers_eq_ok {draws : Draws} {lookbackBlocks : ℤ} {out : Loaded}
    (h : loadTransfers lib loader node 1 lookbackBlocks draws = .ok out) :
    ∃ logs, Gets lib loader node lookbackBlocks logs ∧
      (∀ log ∈ logs, ∀ read, ReadAs lib loader node log read →
        ∃ result, verifyTransfer lib loader node read = .ok result) ∧
        ∀ t, t ∈ out.accepted ↔ ∃ log ∈ logs, AcceptedFrom lib loader node log t := by
  rw [loadTransfers] at h
  obtain ⟨latestHead, hhead, h⟩ := bind_eq_ok.mp h
  obtain ⟨orphaned, -, h⟩ := bind_eq_ok.mp h
  obtain ⟨logs, hlogs, h⟩ := bind_eq_ok.mp h
  obtain ⟨s, hfold, h⟩ := bind_eq_ok.mp h
  cases h
  obtain ⟨hreads, haccepted⟩ := foldlM_processLog hfold
  refine ⟨logs, ⟨latestHead, hhead, hlogs⟩, hreads, fun t => ?_⟩
  rw [haccepted, or_iff_right List.not_mem_nil]

theorem accepted_listed_iff {draws : Draws} {lookbackBlocks : ℤ} {out : Loaded}
    (h : loadTransfers lib loader node 1 lookbackBlocks draws = .ok out) :
    (∀ t ∈ out.accepted, Listed lib loader node t) ↔
      ∀ logs, Gets lib loader node lookbackBlocks logs → ∀ log ∈ logs, ∀ t,
        ReadAs lib loader node log t → Listed lib loader node t ∨ Caught lib loader node t := by
  obtain ⟨logs, hgets, hreads, haccepted⟩ := loadTransfers_eq_ok h
  have honly {logs' : List EventLog} (hgets' : Gets lib loader node lookbackBlocks logs') :
      logs' = logs := by
    obtain ⟨head, hhead, hlogs⟩ := hgets
    obtain ⟨head', hhead', hlogs'⟩ := hgets'
    obtain rfl := Except.ok.inj (hhead.symm.trans hhead')
    exact Except.ok.inj (hlogs'.symm.trans hlogs)
  constructor
  · intro hlisted logs' hgets' log hlog t ht
    rw [honly hgets'] at hlog
    obtain ⟨result, hresult⟩ := hreads log hlog t ht
    by_cases htampered : result = .tampered
    · rw [htampered] at hresult
      exact .inr (verifyTransfer_eq_tampered_iff.mp hresult)
    · exact .inl (hlisted (stamped node t result)
        ((haccepted _).mpr ⟨log, hlog, t, result, ht, hresult, htampered, rfl⟩))
  · intro hcaught t ht
    obtain ⟨log, hlog, read, result, hread, hresult, hpassed, rfl⟩ := (haccepted t).mp ht
    rcases hcaught logs hgets log hlog read hread with hlisted | hcaught
    · exact hlisted
    · rw [verifyTransfer_eq_tampered_iff.mpr hcaught] at hresult
      exact absurd (Except.ok.inj hresult).symm hpassed

end Accepted

section Results

/-- The events of a block are all verified if and only if no log precedes those of a transaction
with a bridge event. What a call with sample rate one accepts is listed in the receipts if and only
if every event read that is not is at a position of its receipt where another log stands. -/
theorem receipts_verify_iff (lib : Library) (loader : Loader) (node : Node) (b : Block)
    (hserves : Serves node.receipt b) :
    (AllVerified lib loader.contractAddress node.receipt b ↔
      ∀ before tx after, b.transactions = before ++ tx :: after →
        (∃ l ∈ tx.logs, l.IsBridgeEvent lib loader.contractAddress) → logCount before = 0) ∧
      ∀ lookbackBlocks draws out,
        loadTransfers lib loader node 1 lookbackBlocks draws = .ok out →
          ((∀ t ∈ out.accepted, Listed lib loader node t) ↔
            ∀ logs, Gets lib loader node lookbackBlocks logs → ∀ log ∈ logs, ∀ t,
              ReadAs lib loader node log t →
                Listed lib loader node t ∨ Caught lib loader node t) :=
  ⟨allVerified_iff hserves, fun _ _ _ h => accepted_listed_iff h⟩

end Results

section Examples

def sampleLibrary : Library where
  lower := String.toLower
  toChecksumAddress := some
  intOfHex := fun text => if text = "0x1" then some 1 else if text = "0x10" then some 16 else none
  bytesFromHex := fun _ => some (List.replicate 32 0)
  stellarPublicKey := fun _ => some "GAAAAAAAAAAAAAAAAAAAAAAAAAAAAAAAAAAAAAAAAAAAAAAAAAAAAWHF"
  tokensSentTopic := "0x01a2"

def sampleBlock : Block where
  hash := "0xb10c"
  transactions := [⟨"0xt1", [⟨"0xc0de", ["0x77"], "0x"⟩]⟩,
    ⟨"0xt2", [⟨"0xb41d", ["0x01a2", "0x5e4d"], "0xda7a"⟩]⟩]
  hashes_nodup := by decide

def sampleNode : Node where
  latestBlock := .ok 16
  blockHash := fun _ => .ok (some "0xb10c")
  blockTimestamp := fun _ => .ok 1700000000
  logs := fun _ _ => .ok [⟨some "0xb41d", some ["0x01a2", "0x5e4d"],
    some (String.ofList (List.replicate 128 '0')), some (.hex "0x10"), some "0xb10c", some "0xt9",
    some (.hex "0x1"), false⟩]
  receipt := fun txHash =>
    if txHash = "0xt1" then .ok
      (some (sampleBlock.receiptAt 0 ⟨"0xt1", [⟨"0xc0de", ["0x77"], "0x"⟩]⟩))
    else if txHash = "0xt2" then .ok (some (sampleBlock.receiptAt 1
      ⟨"0xt2", [⟨"0xb41d", ["0x01a2", "0x5e4d"], "0xda7a"⟩]⟩))
    else .ok none
  now := 1700000100

def sampleLoader : Loader where
  chain := "ethereum"
  contractAddress := "0xb41d"
  chainId := 1
  finality := ⟨0, 0, ∅, le_rfl⟩

theorem sampleNode_serves : Serves sampleNode.receipt sampleBlock := by
  intro before tx after htx
  cases before with
  | nil =>
    obtain ⟨rfl, -⟩ := List.cons.inj htx
    rfl
  | cons first before =>
    obtain ⟨rfl, hrest⟩ := List.cons.inj htx
    cases before with
    | nil =>
      obtain ⟨rfl, -⟩ := List.cons.inj hrest
      rfl
    | cons second before =>
      have hlength := congrArg List.length hrest
      simp at hlength

def sampleDraws : Draws := ⟨fun _ => 0, fun _ => one_pos⟩

theorem receipts_verify_iff_sample :
    (AllVerified sampleLibrary sampleLoader.contractAddress sampleNode.receipt sampleBlock ↔
      ∀ before tx after, sampleBlock.transactions = before ++ tx :: after →
        (∃ l ∈ tx.logs, l.IsBridgeEvent sampleLibrary sampleLoader.contractAddress) →
          logCount before = 0) ∧
      ∃ out, loadTransfers sampleLibrary sampleLoader sampleNode 1 10 sampleDraws = .ok out ∧
        ((∀ t ∈ out.accepted, Listed sampleLibrary sampleLoader sampleNode t) ↔
          ∀ logs, Gets sampleLibrary sampleLoader sampleNode 10 logs → ∀ log ∈ logs, ∀ t,
            ReadAs sampleLibrary sampleLoader sampleNode log t →
              Listed sampleLibrary sampleLoader sampleNode t ∨
                Caught sampleLibrary sampleLoader sampleNode t) := by
  have hiff := receipts_verify_iff sampleLibrary sampleLoader sampleNode sampleBlock
    sampleNode_serves
  refine ⟨hiff.1, ?_⟩
  have hok : (loadTransfers sampleLibrary sampleLoader sampleNode 1 10 sampleDraws).isOk := by
    decide +kernel
  cases hout : loadTransfers sampleLibrary sampleLoader sampleNode 1 10 sampleDraws with
  | error e =>
    rw [hout] at hok
    cases hok
  | ok out => exact ⟨out, rfl, hiff.2 10 sampleDraws out hout⟩

/-- The event of the second transaction is not found at its position. -/
theorem sampleBlock_not_verified :
    ¬ AllVerified sampleLibrary sampleLoader.contractAddress sampleNode.receipt sampleBlock := by
  intro hverified
  have hevent := hverified [⟨"0xt1", [⟨"0xc0de", ["0x77"], "0x"⟩]⟩]
    ⟨"0xt2", [⟨"0xb41d", ["0x01a2", "0x5e4d"], "0xda7a"⟩]⟩ [] 0
    ⟨"0xb41d", ["0x01a2", "0x5e4d"], "0xda7a"⟩ rfl rfl ⟨rfl, rfl⟩
  exact absurd hevent (by decide)

end Examples

end BridgeReceipts
