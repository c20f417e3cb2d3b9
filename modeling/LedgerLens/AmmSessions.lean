import LedgerLens.Dictionaries
import Mathlib.Algebra.Order.Field.Rat
import Mathlib.Data.Finset.Insert
import Mathlib.Data.List.Sort
import Mathlib.Data.String.Basic

/-!
# Sessions in liquidity pools

`AMMEngine` of `detection/amm_engine.py`: the sessions of a wallet in a pool run from a deposit to
a withdrawal, collect the trades between them, and are scored when they are closed. The reading of
ISO texts is a parameter, and numbers are exact.
-/
namespace AmmSessions

open Dictionaries

def MAX_SESSIONS_PER_WALLET : ℕ := 1000

/-- A time, in microseconds, and how it is written. -/
structure Timestamp where
  instant : ℤ
  isoformat : String
  deriving DecidableEq, Repr

/-- A time as an operation or a trade holds it. -/
inductive TimeValue where
  | text (s : String)
  | datetime (t : Timestamp)
  | other
  deriving DecidableEq, Repr

inductive OperationType where
  | name (s : String)
  | number (n : ℤ)
  deriving DecidableEq, Repr

structure Reserves where
  first : Option ℚ
  rest : List (Option ℚ)
  deriving DecidableEq, Repr

structure Operation where
  pagingToken : String
  account : Option String := none
  sourceAccount : Option String := none
  liquidityPoolId : Option String := none
  type : Option OperationType := none
  typeI : Option OperationType := none
  timestamp : Option TimeValue := none
  createdAt : Option TimeValue := none
  reservesDeposited : Option Reserves := none
  reservesReceived : Option Reserves := none
  amountA : Option ℚ := none
  amountB : Option ℚ := none
  deriving DecidableEq, Repr

structure PoolTrade where
  baseAccount : Option String := none
  liquidityPoolId : Option String := none
  timestamp : Option TimeValue := none
  ledgerCloseTime : Option TimeValue := none
  baseAmount : Option ℚ := none
  counterAccount : Option String := none
  deriving DecidableEq, Repr

structure AMMSession where
  wallet : String
  poolId : String
  depositTime : Timestamp
  withdrawTime : Option Timestamp
  depositedAmountA : ℚ
  depositedAmountB : ℚ
  withdrawnAmountA : ℚ
  withdrawnAmountB : ℚ
  tradesDuringTenure : List PoolTrade
  deriving DecidableEq, Repr

structure AMMPoolAnomaly where
  wallet : String
  poolId : String
  sessionStart : Timestamp
  tenureSeconds : ℚ
  volumeToLiquidityRatio : ℚ
  depositWithdrawSymmetry : ℚ
  counterpartyConcentration : ℚ
  anomalyScore : ℚ
  deriving DecidableEq, Repr

/-- A wallet and a pool. -/
abbrev Key := String × String

structure AMMConfig where
  maxTenureSeconds : ℚ := 14400
  minVolumeRatio : ℚ := 5

structure AMMEngine where
  sessions : Dictionary Key (List AMMSession)
  anomalies : List AMMPoolAnomaly
  seenKeys : Finset (String × String × String)

def AMMEngine.init : AMMEngine := ⟨.empty, [], ∅⟩

/-- Sixty-four lower-case hexadecimal digits, with at most a line break after them. -/
def isPoolId (s : String) : Bool :=
  let digits := s.toList.take 64
  digits.length = 64 && digits.all (fun c => ('0' ≤ c && c ≤ '9') || ('a' ≤ c && c ≤ 'f')) &&
    (s.toList.drop 64 = [] || s.toList.drop 64 = ['\n'])

def truncate (s : String) : String := .ofList (s.toList.take 100)

def withoutBreaks (s : String) : String := .ofList (s.toList.filter (· ≠ '\n'))

/-- A deposit to a pool or a withdrawal from it. -/
structure Event where
  key : Key
  deposit : Bool
  time : Timestamp
  amountA : ℚ
  amountB : ℚ
  deriving DecidableEq, Repr

section Read

variable (fromisoformat : String → Option Timestamp)

def readTime (value : Option TimeValue) : Option Timestamp :=
  match value with
  | some (.text s) => fromisoformat s
  | some (.datetime t) => some t
  | some .other => none
  | none => none

def firstAmount (reserves : Option Reserves) (amount : Option ℚ) : ℚ :=
  match reserves with
  | some r => r.first.getD 0
  | none => amount.getD 0

def lastAmount (reserves : Option Reserves) (amount : Option ℚ) : ℚ :=
  match reserves with
  | some r => if h : r.rest ≠ [] then (r.rest.getLast h).getD 0 else amount.getD 0
  | none => amount.getD 0

def Operation.key (op : Operation) : Key :=
  (withoutBreaks (truncate (op.account.getD (op.sourceAccount.getD ""))),
    withoutBreaks (truncate (op.liquidityPoolId.getD "")))

def Operation.opType (op : Operation) : OperationType := op.type.getD (op.typeI.getD (.name ""))

def Operation.time (op : Operation) : Option Timestamp :=
  readTime fromisoformat (op.timestamp.orElse fun _ => op.createdAt)

/-- Operations of other kinds, of no pool and without a readable time are passed over. -/
def Operation.read (op : Operation) : Option Event :=
  if !isPoolId op.key.2 then none
  else
    match op.time fromisoformat with
    | none => none
    | some time =>
      if op.opType = .name "liquidity_pool_deposit" ∨ op.opType = .number 22 then
        some ⟨op.key, true, time, firstAmount op.reservesDeposited op.amountA,
          lastAmount op.reservesDeposited op.amountB⟩
      else if op.opType = .name "liquidity_pool_withdraw" ∨ op.opType = .number 23 then
        some ⟨op.key, false, time, firstAmount op.reservesReceived op.amountA,
          lastAmount op.reservesReceived op.amountB⟩
      else none

def PoolTrade.key (trade : PoolTrade) : Key :=
  (truncate (trade.baseAccount.getD ""), truncate (trade.liquidityPoolId.getD ""))

def PoolTrade.time (trade : PoolTrade) : Option Timestamp :=
  readTime fromisoformat (trade.timestamp.orElse fun _ => trade.ledgerCloseTime)

end Read

def Event.openSession (e : Event) : AMMSession where
  wallet := e.key.1
  poolId := e.key.2
  depositTime := e.time
  withdrawTime := none
  depositedAmountA := e.amountA
  depositedAmountB := e.amountB
  withdrawnAmountA := 0
  withdrawnAmountB := 0
  tradesDuringTenure := []

def AMMSession.close (s : AMMSession) (e : Event) : AMMSession :=
  { s with
    withdrawTime := some e.time
    withdrawnAmountA := e.amountA
    withdrawnAmountB := e.amountB }

def makeRoom (sessions : List AMMSession) : List AMMSession :=
  if MAX_SESSIONS_PER_WALLET ≤ sessions.length then
    sessions.drop (sessions.length - (MAX_SESSIONS_PER_WALLET - 1))
  else sessions

def closeFirst (e : Event) : List AMMSession → List AMMSession
  | [] => []
  | s :: rest => if s.withdrawTime = none then s.close e :: rest else s :: closeFirst e rest

def applyEvent (sessions : List AMMSession) (e : Event) : List AMMSession :=
  if e.deposit then makeRoom sessions ++ [e.openSession] else closeFirst e sessions

section Trades

variable (fromisoformat : String → Option Timestamp)

def AMMSession.Spans (s : AMMSession) (trade : PoolTrade) : Prop :=
  ∃ ts, trade.time fromisoformat = some ts ∧ s.depositTime.instant ≤ ts.instant ∧
    ∀ w, s.withdrawTime = some w → ts.instant ≤ w.instant

instance (s : AMMSession) (trade : PoolTrade) : Decidable (s.Spans fromisoformat trade) :=
  match h : trade.time fromisoformat, h' : s.withdrawTime with
  | none, _ => .isFalse fun ⟨_, hts, _⟩ => by rw [h] at hts; cases hts
  | some ts, none =>
    decidable_of_iff (s.depositTime.instant ≤ ts.instant) (by simp [AMMSession.Spans, h, h'])
  | some ts, some w =>
    decidable_of_iff (s.depositTime.instant ≤ ts.instant ∧ ts.instant ≤ w.instant)
      (by simp [AMMSession.Spans, h, h'])

def AMMSession.attach (s : AMMSession) (trade : PoolTrade) : AMMSession :=
  if s.Spans fromisoformat trade then
    { s with tradesDuringTenure := s.tradesDuringTenure ++ [trade] }
  else s

end Trades

namespace AMMSession

def liquidity (s : AMMSession) : ℚ := max (s.depositedAmountA + s.depositedAmountB) (1 / 10 ^ 9)

def volumeToLiquidityRatio (s : AMMSession) : ℚ :=
  (s.tradesDuringTenure.map fun t => t.baseAmount.getD 0).sum / s.liquidity

def depositWithdrawSymmetry (s : AMMSession) : ℚ :=
  let deltaA := |s.depositedAmountA - s.withdrawnAmountA|
  let deltaB := |s.depositedAmountB - s.withdrawnAmountB|
  1 - min ((deltaA + deltaB) / s.liquidity) 1

def counterparties (s : AMMSession) : List String :=
  s.tradesDuringTenure.filterMap fun t => t.counterAccount.filter (· ≠ "")

def counterpartyConcentration (s : AMMSession) : ℚ :=
  if s.counterparties = [] then 0
  else (((s.counterparties.map s.counterparties.count).max?.getD 0 : ℕ) : ℚ) /
    s.counterparties.length

def dedupKey (s : AMMSession) : String × String × String :=
  (s.wallet, s.poolId, s.depositTime.isoformat)

end AMMSession

def computeAnomalyScore (config : AMMConfig) (tenure volRatio symmetry cpConc : ℚ) : ℚ :=
  let tenureScore := max 0 (1 - tenure / config.maxTenureSeconds)
  let volScore := min 1 (volRatio / (config.minVolumeRatio * 4))
  let symScore := if 1 / 2 < symmetry then max 0 ((symmetry - 1 / 2) / (1 / 2)) else 0
  let cpScore := if 3 / 10 < cpConc then max 0 ((cpConc - 3 / 10) / (7 / 10)) else 0
  min 1 (3 / 10 * tenureScore + 3 / 10 * volScore + 1 / 5 * symScore + 1 / 5 * cpScore)

def anomalyOf (config : AMMConfig) (s : AMMSession) : Option AMMPoolAnomaly :=
  match s.withdrawTime with
  | none => none
  | some withdrawTime =>
    let tenure : ℚ := (withdrawTime.instant - s.depositTime.instant : ℤ) / 10 ^ 6
    let score := computeAnomalyScore config tenure s.volumeToLiquidityRatio
      s.depositWithdrawSymmetry s.counterpartyConcentration
    if 3 / 10 < score then
      some
        { wallet := s.wallet
          poolId := s.poolId
          sessionStart := s.depositTime
          tenureSeconds := tenure
          volumeToLiquidityRatio := s.volumeToLiquidityRatio
          depositWithdrawSymmetry := s.depositWithdrawSymmetry
          counterpartyConcentration := s.counterpartyConcentration
          anomalyScore := score }
    else none

section Ingest

variable (fromisoformat : String → Option Timestamp) (config : AMMConfig)

def stepEvent (sessions : Dictionary Key (List AMMSession)) (e : Event) :
    Dictionary Key (List AMMSession) :=
  sessions.set e.key (applyEvent ((sessions.get? e.key).getD []) e)

def stepTrade (sessions : Dictionary Key (List AMMSession)) (trade : PoolTrade) :
    Dictionary Key (List AMMSession) :=
  if !isPoolId trade.key.2 then sessions
  else
    match sessions.get? trade.key with
    | none => sessions
    | some l => sessions.set trade.key (l.map fun s => s.attach fromisoformat trade)

def scoreSession (found : List AMMPoolAnomaly × Finset (String × String × String))
    (s : AMMSession) : List AMMPoolAnomaly × Finset (String × String × String) :=
  if s.dedupKey ∈ found.2 then found
  else
    match anomalyOf config s with
    | none => found
    | some anomaly => (found.1 ++ [anomaly], insert s.dedupKey found.2)

def sortOperations (operations : List Operation) : List Operation :=
  operations.insertionSort fun o o' => o.pagingToken ≤ o'.pagingToken

/-- The new anomalies are those that the engine did not hold before. -/
def AMMEngine.ingestOperations (engine : AMMEngine) (operations : List Operation)
    (trades : List PoolTrade) : AMMEngine :=
  let events := (sortOperations operations).filterMap (Operation.read fromisoformat)
  let sessions := trades.foldl (stepTrade fromisoformat) (events.foldl stepEvent engine.sessions)
  let found := (sessions.entries.flatMap Prod.snd).foldl (scoreSession config)
    (engine.anomalies, engine.seenKeys)
  ⟨sessions, found.1, found.2⟩

end Ingest

def closed (sessions : List AMMSession) : List AMMSession :=
  sessions.filter fun s => s.withdrawTime ≠ none

def AMMSession.key (s : AMMSession) : Key := (s.wallet, s.poolId)

def AMMPoolAnomaly.key (a : AMMPoolAnomaly) : Key := (a.wallet, a.poolId)

section Lists

variable (fromisoformat : String → Option Timestamp)

def AMMSession.attachAll (s : AMMSession) (trades : List PoolTrade) : AMMSession :=
  { s with
    tradesDuringTenure :=
      s.tradesDuringTenure ++ trades.filter fun t => s.Spans fromisoformat t }

variable {fromisoformat}

theorem foldl_attach (s : AMMSession) (trades : List PoolTrade) :
    trades.foldl (AMMSession.attach fromisoformat) s = s.attachAll fromisoformat trades := by
  induction trades generalizing s with
  | nil => simp [AMMSession.attachAll]
  | cons t trades ih =>
    rw [List.foldl_cons, ih, AMMSession.attachAll, AMMSession.attachAll, AMMSession.attach]
    by_cases hspans : s.Spans fromisoformat t
    · have hsame : (trades.filter fun t' => AMMSession.Spans fromisoformat
          { s with tradesDuringTenure := s.tradesDuringTenure ++ [t] } t') =
            trades.filter fun t' => s.Spans fromisoformat t' :=
        List.filter_congr fun t' _ => decide_eq_decide.mpr Iff.rfl
      rw [if_pos hspans, List.filter_cons_of_pos (by simpa using hspans), hsame]
      simp
    · rw [if_neg hspans, List.filter_cons_of_neg (by simpa using hspans)]

theorem attachAll_append (s : AMMSession) (trades trades' : List PoolTrade) :
    s.attachAll fromisoformat (trades ++ trades') =
      (s.attachAll fromisoformat trades).attachAll fromisoformat trades' := by
  rw [← foldl_attach, List.foldl_append, foldl_attach, foldl_attach]

theorem attachAll_nil (s : AMMSession) : s.attachAll fromisoformat [] = s := by
  rw [← foldl_attach, List.foldl_nil]

theorem attachAll_of_not_spans {s : AMMSession} {trades : List PoolTrade}
    (h : ∀ t ∈ trades, ¬ s.Spans fromisoformat t) : s.attachAll fromisoformat trades = s := by
  have hnil : (trades.filter fun t => s.Spans fromisoformat t) = [] :=
    List.filter_eq_nil_iff.mpr fun t ht => by simpa using h t ht
  rw [AMMSession.attachAll, hnil, List.append_nil]

def Before (fromisoformat : String → Option Timestamp) (trades : List PoolTrade) (e : Event) :
    Prop :=
  ∀ t ∈ trades, ∀ ts, t.time fromisoformat = some ts →
    ts.instant ≤ e.time.instant ∧ (e.deposit = true → ts.instant ≠ e.time.instant)

theorem attachAll_openSession {trades : List PoolTrade} {e : Event}
    (hbefore : Before fromisoformat trades e) (hdeposit : e.deposit = true) :
    e.openSession.attachAll fromisoformat trades = e.openSession := by
  apply attachAll_of_not_spans
  rintro t ht ⟨ts, hts, hle, -⟩
  obtain ⟨hle', hne⟩ := hbefore t ht ts hts
  exact hne hdeposit (le_antisymm hle' hle)

theorem attachAll_close {trades : List PoolTrade} {e : Event}
    (hbefore : Before fromisoformat trades e) {s : AMMSession} (hopen : s.withdrawTime = none) :
    (s.attachAll fromisoformat trades).close e = (s.close e).attachAll fromisoformat trades := by
  have hsame : (trades.filter fun t => s.Spans fromisoformat t) =
      trades.filter fun t => (s.close e).Spans fromisoformat t := by
    apply List.filter_congr
    intro t ht
    have hiff : s.Spans fromisoformat t ↔ (s.close e).Spans fromisoformat t := by
      constructor
      · rintro ⟨ts, hts, hle, -⟩
        refine ⟨ts, hts, hle, fun w hw => ?_⟩
        obtain rfl : e.time = w := Option.some.inj hw
        exact (hbefore t ht ts hts).1
      · rintro ⟨ts, hts, hle, -⟩
        exact ⟨ts, hts, hle, fun w hw => by rw [hopen] at hw; cases hw⟩
    rw [decide_eq_decide]
    exact hiff
  rw [AMMSession.attachAll, AMMSession.attachAll, hsame]
  rfl

theorem makeRoom_map (f : AMMSession → AMMSession) (sessions : List AMMSession) :
    makeRoom (sessions.map f) = (makeRoom sessions).map f := by
  rw [makeRoom, makeRoom, List.length_map]
  split
  · rw [List.map_drop]
  · rfl

theorem closeFirst_attachAll {trades : List PoolTrade} {e : Event}
    (hbefore : Before fromisoformat trades e) (sessions : List AMMSession) :
    closeFirst e (sessions.map fun s => s.attachAll fromisoformat trades) =
      (closeFirst e sessions).map fun s => s.attachAll fromisoformat trades := by
  induction sessions with
  | nil => rfl
  | cons s rest ih =>
    rw [List.map_cons, closeFirst, closeFirst]
    by_cases hopen : s.withdrawTime = none
    · rw [if_pos (show (s.attachAll fromisoformat trades).withdrawTime = none from hopen),
        if_pos hopen, List.map_cons, attachAll_close hbefore hopen]
    · rw [if_neg (show ¬ (s.attachAll fromisoformat trades).withdrawTime = none from hopen),
        if_neg hopen, List.map_cons, ih]

theorem applyEvent_attachAll {trades : List PoolTrade} {e : Event}
    (hbefore : Before fromisoformat trades e) (sessions : List AMMSession) :
    applyEvent (sessions.map fun s => s.attachAll fromisoformat trades) e =
      (applyEvent sessions e).map fun s => s.attachAll fromisoformat trades := by
  rw [applyEvent, applyEvent]
  by_cases hdeposit : e.deposit = true
  · rw [if_pos hdeposit, if_pos hdeposit, makeRoom_map, List.map_append, List.map_singleton,
      attachAll_openSession hbefore hdeposit]
  · rw [if_neg hdeposit, if_neg hdeposit, closeFirst_attachAll hbefore]

theorem foldl_applyEvent_attachAll {trades : List PoolTrade} {events : List Event}
    (hbefore : ∀ e ∈ events, Before fromisoformat trades e) (sessions : List AMMSession) :
    events.foldl applyEvent (sessions.map fun s => s.attachAll fromisoformat trades) =
      (events.foldl applyEvent sessions).map fun s => s.attachAll fromisoformat trades := by
  induction events generalizing sessions with
  | nil => rfl
  | cons e events ih =>
    rw [List.foldl_cons, List.foldl_cons, applyEvent_attachAll (hbefore e List.mem_cons_self)]
    exact ih (fun e' he' => hbefore e' (List.mem_cons_of_mem e he')) _

theorem closed_map_attachAll (trades : List PoolTrade) (sessions : List AMMSession) :
    closed (sessions.map fun s => s.attachAll fromisoformat trades) =
      (closed sessions).map fun s => s.attachAll fromisoformat trades := by
  rw [closed, closed, List.filter_map]
  rfl

end Lists

theorem mem_makeRoom {sessions : List AMMSession} {s : AMMSession} (h : s ∈ makeRoom sessions) :
    s ∈ sessions := by
  rw [makeRoom] at h
  split at h
  · exact List.mem_of_mem_drop h
  · exact h

theorem mem_closeFirst {e : Event} {sessions : List AMMSession} {s : AMMSession}
    (h : s ∈ closeFirst e sessions) : s ∈ sessions ∨ ∃ s' ∈ sessions, s = s'.close e := by
  induction sessions with
  | nil => cases h
  | cons s' rest ih =>
    rw [closeFirst] at h
    split at h
    · rcases List.mem_cons.mp h with rfl | h
      · exact .inr ⟨s', List.mem_cons_self, rfl⟩
      · exact .inl (List.mem_cons_of_mem s' h)
    · rcases List.mem_cons.mp h with rfl | h
      · exact .inl List.mem_cons_self
      · rcases ih h with h | ⟨r, hr, rfl⟩
        · exact .inl (List.mem_cons_of_mem s' h)
        · exact .inr ⟨r, List.mem_cons_of_mem s' hr, rfl⟩

theorem mem_applyEvent {e : Event} {sessions : List AMMSession} {s : AMMSession}
    (h : s ∈ applyEvent sessions e) :
    s ∈ sessions ∨ s = e.openSession ∨ ∃ s' ∈ sessions, s = s'.close e := by
  rw [applyEvent] at h
  split at h
  · rcases List.mem_append.mp h with h | h
    · exact .inl (mem_makeRoom h)
    · exact .inr (.inl (List.mem_singleton.mp h))
  · exact (mem_closeFirst h).imp_right .inr

theorem forall_mem_foldl {P : AMMSession → Prop} {events : List Event}
    (hopen : ∀ e ∈ events, P e.openSession) (hclose : ∀ e ∈ events, ∀ s, P s → P (s.close e))
    {sessions : List AMMSession} (h : ∀ s ∈ sessions, P s) :
    ∀ s ∈ events.foldl applyEvent sessions, P s := by
  induction events generalizing sessions with
  | nil => exact h
  | cons e events ih =>
    refine ih (fun e' he' => hopen e' (List.mem_cons_of_mem e he'))
      (fun e' he' => hclose e' (List.mem_cons_of_mem e he')) fun s hs => ?_
    rcases mem_applyEvent hs with hs | rfl | ⟨s', hs', rfl⟩
    · exact h s hs
    · exact hopen e List.mem_cons_self
    · exact hclose e List.mem_cons_self s' (h s' hs')

def Fifo (sessions : List AMMSession) : Prop :=
  sessions.Pairwise fun s s' => s'.withdrawTime ≠ none → s.withdrawTime ≠ none

theorem Fifo.closeFirst {sessions : List AMMSession} (h : Fifo sessions) (e : Event) :
    Fifo (closeFirst e sessions) := by
  induction sessions with
  | nil => exact h
  | cons s rest ih =>
    obtain ⟨hs, hrest⟩ := List.pairwise_cons.mp h
    rw [AmmSessions.closeFirst]
    split_ifs with hopen
    · refine List.pairwise_cons.mpr ⟨fun _ _ _ hnone => ?_, hrest⟩
      cases hnone
    · exact List.pairwise_cons.mpr ⟨fun _ _ _ => hopen, ih hrest⟩

theorem Fifo.applyEvent {sessions : List AMMSession} (h : Fifo sessions) (e : Event) :
    Fifo (applyEvent sessions e) := by
  rw [AmmSessions.applyEvent]
  split
  · refine List.pairwise_append.mpr ⟨?_, List.pairwise_singleton _ _, fun s _ s' hs' hclosed => ?_⟩
    · rw [makeRoom]
      split
      · exact h.drop
      · exact h
    · rw [List.mem_singleton.mp hs'] at hclosed
      exact absurd rfl hclosed
  · exact h.closeFirst e

theorem closed_closeFirst {sessions : List AMMSession} (h : Fifo sessions) (e : Event) :
    closed sessions <+: closed (closeFirst e sessions) := by
  induction sessions with
  | nil => exact List.prefix_rfl
  | cons s rest ih =>
    obtain ⟨hs, hrest⟩ := List.pairwise_cons.mp h
    rw [closeFirst]
    split_ifs with hopen
    · have hnil : closed (s :: rest) = [] := by
        refine List.filter_eq_nil_iff.mpr fun s' hs' hclosed => ?_
        rcases List.mem_cons.mp hs' with rfl | hs'
        · exact of_decide_eq_true hclosed hopen
        · exact hs s' hs' (of_decide_eq_true hclosed) hopen
      rw [hnil]
      exact List.nil_prefix
    · rw [closed, closed, List.filter_cons_of_pos (by simpa using hopen),
        List.filter_cons_of_pos (by simpa using hopen)]
      exact (List.prefix_cons_inj s).mpr (ih hrest)

theorem closed_applyEvent {sessions : List AMMSession} (h : Fifo sessions) {e : Event}
    (hroom : e.deposit = true → sessions.length < MAX_SESSIONS_PER_WALLET) :
    closed sessions <+: closed (applyEvent sessions e) := by
  rw [applyEvent]
  split
  · next hdeposit =>
    rw [makeRoom, if_neg (not_le.mpr (hroom hdeposit)), closed, closed, List.filter_append]
    exact List.prefix_append _ _
  · exact closed_closeFirst h e

theorem length_closeFirst (e : Event) (sessions : List AMMSession) :
    (closeFirst e sessions).length = sessions.length := by
  induction sessions with
  | nil => rfl
  | cons s rest ih =>
    rw [closeFirst]
    split
    · rfl
    · rw [List.length_cons, List.length_cons, ih]

theorem length_applyEvent_le (sessions : List AMMSession) (e : Event) :
    (applyEvent sessions e).length ≤ sessions.length + if e.deposit then 1 else 0 := by
  rw [applyEvent]
  split
  · have hle : (makeRoom sessions).length ≤ sessions.length := by
      rw [makeRoom]
      split
      · rw [List.length_drop]
        exact Nat.sub_le _ _
      · exact le_rfl
    rw [List.length_append, List.length_singleton]
    exact Nat.add_le_add_right hle 1
  · exact (length_closeFirst e sessions).le

theorem Fifo.foldl {sessions : List AMMSession} (h : Fifo sessions) (events : List Event) :
    Fifo (events.foldl AmmSessions.applyEvent sessions) := by
  induction events generalizing sessions with
  | nil => exact h
  | cons e events ih => exact ih (h.applyEvent e)

theorem length_foldl_applyEvent_le (events : List Event) (sessions : List AMMSession) :
    (events.foldl applyEvent sessions).length ≤
      sessions.length + events.countP Event.deposit := by
  induction events generalizing sessions with
  | nil => exact le_rfl
  | cons e events ih =>
    have hrest := ih (applyEvent sessions e)
    have hlength := length_applyEvent_le sessions e
    rw [List.foldl_cons, List.countP_cons]
    omega

theorem closed_foldl {events : List Event} {sessions : List AMMSession} (h : Fifo sessions)
    (hfew : sessions.length + events.countP Event.deposit ≤ MAX_SESSIONS_PER_WALLET) :
    closed sessions <+: closed (events.foldl applyEvent sessions) := by
  induction events generalizing sessions with
  | nil => exact List.prefix_rfl
  | cons e events ih =>
    rw [List.countP_cons] at hfew
    have hlength := length_applyEvent_le sessions e
    refine (closed_applyEvent h fun hdeposit => ?_).trans (ih (h.applyEvent e) (by omega))
    rw [if_pos hdeposit] at hfew
    omega

end AmmSessions
