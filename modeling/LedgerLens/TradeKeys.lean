import LedgerLens.HorizonTrades

/-!
# The keys of streamed trades

Which trades of the Horizon stream share an idempotency key (`_check_trade_dedup` of
`ingestion/horizon_streamer.py`, `compute_key_static` of `ingestion/dedup.py`). The key hashes the
two numbers of the paging token and a transaction hash that no streamed trade has.
-/
namespace TradeKeys

open HorizonTrades JsonText Sha256

/-- Of a `/trades` record what the key is made of. -/
structure TradeRecord where
  id : String
  pagingToken : Option String
  ledgerCloseTime : ℚ
  deriving DecidableEq

/-- `record.get("paging_token") or record["id"]`. -/
def TradeRecord.token (record : TradeRecord) : String :=
  match record.pagingToken with
  | none => record.id
  | some token => if token = "" then record.id else token

def parseTrade (record : TradeRecord) : Trade where
  id := record.id
  pagingToken := some record.token
  ledgerCloseTime := record.ledgerCloseTime
  transactionHash := none

theorem token_parseTrade (record : TradeRecord) : (parseTrade record).token = record.token := by
  simp only [Trade.token, parseTrade]
  split_ifs with hempty
  · rw [TradeRecord.token] at hempty ⊢
    cases hpaging : record.pagingToken with
    | none => rfl
    | some token =>
      rw [hpaging] at hempty
      simp only at hempty ⊢
      split_ifs at hempty ⊢ with htoken
      · rfl
      · exact absurd hempty htoken
  · rfl

theorem not_mem_of_mem_splitOn {c : Char} {text part : List Char} (h : part ∈ text.splitOn c) :
    c ∉ part := by
  induction text generalizing part with
  | nil =>
    rw [List.splitOn_nil, List.mem_singleton] at h
    rw [h]
    exact List.not_mem_nil
  | cons d text ih =>
    rw [List.splitOn_cons_eq_if_modifyHead] at h
    split_ifs at h with hsep
    · rcases List.mem_cons.mp h with rfl | hpart
      · exact List.not_mem_nil
      · exact ih hpart
    · cases hparts : text.splitOn c with
      | nil => exact absurd hparts (List.splitOn_ne_nil c text)
      | cons first parts =>
        rw [hparts, List.modifyHead_cons] at h
        rw [hparts] at ih
        rcases List.mem_cons.mp h with rfl | hpart
        · rw [List.mem_cons, not_or]
          refine ⟨?_, ih List.mem_cons_self⟩
          rintro rfl
          exact hsep (beq_self_eq_true _)
        · exact ih (List.mem_cons_of_mem _ hpart)

theorem splitOn_eq_pair_iff {c : Char} {text left right : List Char} :
    text.splitOn c = [left, right] ↔ text = left ++ c :: right ∧ c ∉ left ∧ c ∉ right := by
  constructor
  · intro h
    have hjoin : [c].intercalate (text.splitOn c) = text := List.intercalate_splitOn c
    rw [h] at hjoin
    have hmem (part : List Char) (hpart : part ∈ [left, right]) : c ∉ part :=
      not_mem_of_mem_splitOn (h ▸ hpart)
    refine ⟨?_, hmem left (by simp), hmem right (by simp)⟩
    rw [← hjoin]
    simp [List.intercalate]
  · rintro ⟨rfl, hleft, hright⟩
    rw [List.splitOn_append_cons_self_of_not_mem hleft, List.splitOn_eq_singleton hright]

def Numbered (py : Builtins) (token : String) (ledgerSequence operationIndex : ℤ) : Prop :=
  ∃ ledger operation : String, token = ledger ++ "-" ++ operation ∧
    '-' ∉ ledger.toList ∧ '-' ∉ operation.toList ∧
    py.int ledger = some ledgerSequence ∧ py.int operation = some operationIndex

/-- The place that a token stands for: its two numbers, and zeros for a token of any other
shape. -/
def Place (py : Builtins) (token : String) (ledgerSequence operationIndex : ℤ) : Prop :=
  Numbered py token ledgerSequence operationIndex ∨
    (¬ ∃ l o, Numbered py token l o) ∧ ledgerSequence = 0 ∧ operationIndex = 0

def SamePlace (py : Builtins) (token token' : String) : Prop :=
  ∃ l o, Place py token l o ∧ Place py token' l o

theorem numbered_parts {py : Builtins} {token : String} {l o : ℤ} (h : Numbered py token l o) :
    extractPagingTokenParts py token = (l, o) := by
  obtain ⟨ledger, operation, rfl, hledger, hoperation, hl, ho⟩ := h
  have hsplit : splitDashes (ledger ++ "-" ++ operation) = [ledger, operation] := by
    have hpair : (ledger ++ "-" ++ operation).toList.splitOn '-' =
        [ledger.toList, operation.toList] := by
      apply splitOn_eq_pair_iff.mpr
      exact ⟨by simp, hledger, hoperation⟩
    rw [splitDashes, hpair]
    simp
  rw [extractPagingTokenParts, hsplit]
  simp only
  rw [hl, ho]

theorem numbered_of_splitDashes {py : Builtins} {token ledger operation : String} {l o : ℤ}
    (h : splitDashes token = [ledger, operation]) (hl : py.int ledger = some l)
    (ho : py.int operation = some o) : Numbered py token l o := by
  rw [splitDashes] at h
  obtain ⟨left, rest, hparts, rfl, hrest⟩ := List.map_eq_cons_iff.mp h
  obtain ⟨right, nothing, rfl, rfl, hnothing⟩ := List.map_eq_cons_iff.mp hrest
  obtain rfl := List.map_eq_nil_iff.mp hnothing
  obtain ⟨htoken, hleft, hright⟩ := splitOn_eq_pair_iff.mp hparts
  refine ⟨String.ofList left, String.ofList right, ?_, by simpa using hleft, by simpa using hright,
    hl, ho⟩
  apply String.toList_inj.mp
  simp [htoken]

/-- The two numbers that go into the key. -/
theorem place_iff {py : Builtins} {token : String} {l o : ℤ} :
    Place py token l o ↔ extractPagingTokenParts py token = (l, o) := by
  constructor
  · rintro (h | ⟨hnone, rfl, rfl⟩)
    · exact numbered_parts h
    · rw [extractPagingTokenParts]
      split
      · rename_i ledger operation hsplit
        split
        · rename_i l o hl ho
          exact absurd ⟨l, o, numbered_of_splitDashes hsplit hl ho⟩ hnone
        · rfl
      · rfl
  · intro h
    by_cases hnumbered : ∃ l o, Numbered py token l o
    · obtain ⟨l', o', hplace⟩ := hnumbered
      obtain ⟨rfl, rfl⟩ := Prod.mk.inj ((numbered_parts hplace).symm.trans h)
      exact .inl hplace
    · refine .inr ⟨hnumbered, ?_⟩
      rw [extractPagingTokenParts] at h
      split at h
      · rename_i ledger operation hsplit
        split at h
        · rename_i l' o' hl ho
          exact absurd ⟨l', o', numbered_of_splitDashes hsplit hl ho⟩ hnumbered
        · exact ⟨(Prod.mk.inj h).1.symm, (Prod.mk.inj h).2.symm⟩
      · exact ⟨(Prod.mk.inj h).1.symm, (Prod.mk.inj h).2.symm⟩

theorem samePlace_iff {py : Builtins} {token token' : String} : SamePlace py token token' ↔
    extractPagingTokenParts py token = extractPagingTokenParts py token' := by
  constructor
  · rintro ⟨l, o, h, h'⟩
    rw [place_iff.mp h, place_iff.mp h']
  · intro h
    exact ⟨_, _, place_iff.mpr rfl, place_iff.mpr h.symm⟩

def keyText (py : Builtins) (parts : ℤ × ℤ) (transactionHash : String) : List Char :=
  (Json.object (.ofList
    [("identity_fields", .object (.ofList
        [("ledger_sequence", .number (.ofInt parts.1)),
          ("operation_index", .number (.ofInt parts.2)),
          ("tx_hash", .string (py.lower transactionHash))])),
      ("source", .string "horizon")])).render .default

def digest (text : List Char) : EventDedup.Key :=
  hexdigest (sha256 (text.map fun c => c.toNat.toUInt8))

theorem tradeKey_eq (py : Builtins) (parts : ℤ × ℤ) (trade : Trade) :
    tradeKey py parts trade = digest (keyText py parts (trade.transactionHash.getD "")) := by
  have hsorted (a b c : Json) :
      [("ledger_sequence", a), ("tx_hash", b), ("operation_index", c)].insertionSort
        (fun x y => x.1 ≤ y.1) =
        [("ledger_sequence", a), ("operation_index", c), ("tx_hash", b)] := by
    simp [List.insertionSort, List.orderedInsert]
  simp only [tradeKey, computeKeyStatic, List.map_cons, List.map_nil,
    HorizonTrades.normalize]
  rw [hsorted]
  simp [digest, keyText]

theorem keyText_inj {py : Builtins} {parts parts' : ℤ × ℤ} {hash hash' : String}
    (h : keyText py parts hash = keyText py parts' hash') :
    parts = parts' ∧ py.lower hash = py.lower hash' := by
  have hmembers := Members.ofList_inj (Json.object.inj (Json.render_inj h))
  simp only [List.cons.injEq, Prod.mk.injEq, true_and, and_true] at hmembers
  have hfields := Members.ofList_inj (Json.object.inj hmembers)
  simp only [List.cons.injEq, Prod.mk.injEq, true_and, and_true, Json.number.injEq,
    Json.string.injEq] at hfields
  obtain ⟨hledger, hoperation, hlower⟩ := hfields
  exact ⟨Prod.ext (NumberText.ofInt_inj hledger) (NumberText.ofInt_inj hoperation), hlower⟩

def streamText (py : Builtins) (trade : Trade) : List Char :=
  keyText py (extractPagingTokenParts py trade.token) (trade.transactionHash.getD "")

theorem streamKey_eq (py : Builtins) (trade : Trade) :
    streamKey py trade = digest (streamText py trade) :=
  tradeKey_eq py _ trade

def CollisionFree (text text' : List Char) : Prop := digest text = digest text' → text = text'

/-- Two trades share a key where their tokens stand for one place and their lowered transaction
hashes agree. -/
theorem streamKey_eq_iff {py : Builtins} {trade trade' : Trade}
    (hfree : CollisionFree (streamText py trade) (streamText py trade')) :
    streamKey py trade = streamKey py trade' ↔ SamePlace py trade.token trade'.token ∧
      py.lower (trade.transactionHash.getD "") = py.lower (trade'.transactionHash.getD "") := by
  rw [streamKey_eq, streamKey_eq, samePlace_iff]
  constructor
  · exact fun h => keyText_inj (hfree h)
  · rintro ⟨hparts, hlower⟩
    rw [streamText, streamText, keyText, keyText, hparts, hlower]

def Distinguished (py : Builtins) (record record' : TradeRecord) : Prop :=
  record.token ≠ record'.token →
    streamKey py (parseTrade record) ≠ streamKey py (parseTrade record')

/-- Tokens are told apart by the places that they stand for, and by nothing else. -/
theorem distinguished_iff (py : Builtins) (record record' : TradeRecord)
    (hfree : CollisionFree (streamText py (parseTrade record))
      (streamText py (parseTrade record'))) :
    Distinguished py record record' ↔
      (record.token ≠ record'.token → ¬ SamePlace py record.token record'.token) := by
  have hkeys := streamKey_eq_iff hfree
  rw [token_parseTrade, token_parseTrade] at hkeys
  have hkeys : streamKey py (parseTrade record) = streamKey py (parseTrade record') ↔
      SamePlace py record.token record'.token := by
    rw [hkeys]
    exact and_iff_left rfl
  rw [Distinguished, ne_eq (streamKey py _), hkeys]

theorem key_of_unnumbered {py : Builtins} {record record' : TradeRecord}
    (h : ¬ ∃ l o, Numbered py record.token l o) (h' : ¬ ∃ l o, Numbered py record'.token l o) :
    streamKey py (parseTrade record) = streamKey py (parseTrade record') := by
  have hplace : SamePlace py record.token record'.token :=
    ⟨0, 0, .inr ⟨h, rfl, rfl⟩, .inr ⟨h', rfl, rfl⟩⟩
  rw [streamKey_eq, streamKey_eq, streamText, streamText, token_parseTrade, token_parseTrade,
    samePlace_iff.mp hplace]
  rfl

def recordOf (token : String) : TradeRecord := ⟨token, some token, 1000⟩

/-- Two trades of one ledger. -/
theorem distinguished_two_trades :
    Distinguished asciiBuiltins (recordOf "100-1") (recordOf "100-2") := by
  have hdigests : digest (streamText asciiBuiltins (parseTrade (recordOf "100-1"))) ≠
      digest (streamText asciiBuiltins (parseTrade (recordOf "100-2"))) := by decide +kernel
  refine (distinguished_iff asciiBuiltins _ _ fun h => absurd h hdigests).mpr fun _ => ?_
  rw [samePlace_iff]
  decide +kernel

/-- Tokens without a dash. -/
theorem plain_tokens_collide :
    ¬ ∀ record record' : TradeRecord, Distinguished asciiBuiltins record record' := by
  intro h
  have hdifferent := h (recordOf "200") (recordOf "201") (by decide)
  exact hdifferent (by decide +kernel)

end TradeKeys
