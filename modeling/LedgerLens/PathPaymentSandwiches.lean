import LedgerLens.Bisection
import Mathlib.Algebra.Order.Field.Rat
import Mathlib.Data.Finset.Dedup
import Mathlib.Data.Finset.Lattice.Lemmas
import Mathlib.Data.List.Sort
import Mathlib.Data.Prod.Lex
import Mathlib.Data.String.Basic

/-!
# Sandwiches of routed payments

`detect_path_payment_sandwiches` of `detection/path_payment_engine.py`. Times are in microseconds,
and the rounding of a quotient to a float is a parameter.
-/
namespace PathPaymentSandwiches

open Bisection

structure Asset where
  code : String
  issuer : Option String
  native : issuer = none → code = "XLM"
  deriving DecidableEq

def Asset.pairSymbol (asset : Asset) : String :=
  match asset.issuer with
  | none => asset.code
  | some issuer => asset.code ++ ":" ++ issuer

structure PathPayment where
  id : String
  timestamp : ℤ
  sourceAccount : String
  sourceAsset : Asset
  destinationAsset : Asset
  sourceAmount : ℚ
  destinationAmount : ℚ
  path : List Asset
  sourceAmount_pos : 0 < sourceAmount
  destinationAmount_pos : 0 < destinationAmount

namespace PathPayment

def pairKey (p : PathPayment) : String × String × String :=
  (p.sourceAccount, p.sourceAsset.pairSymbol, p.destinationAsset.pairSymbol)

def reverseKey (p : PathPayment) : String × String × String :=
  (p.sourceAccount, p.destinationAsset.pairSymbol, p.sourceAsset.pairSymbol)

def openingAssets (p : PathPayment) : Finset String :=
  insert p.destinationAsset.pairSymbol (p.path.map Asset.pairSymbol).toFinset

def closeAssets (p : PathPayment) : Finset String :=
  insert p.sourceAsset.pairSymbol (p.path.map Asset.pairSymbol).toFinset

def victimAssets (p : PathPayment) : Finset String := (p.path.map Asset.pairSymbol).toFinset

/-- The order of `sorted`: by time, and by id at one time. -/
def Precedes (p q : PathPayment) : Prop :=
  toLex (p.timestamp, p.id) ≤ toLex (q.timestamp, q.id)

instance : DecidableRel Precedes := fun _ _ => inferInstanceAs (Decidable (_ ≤ _))

instance : IsTrans PathPayment Precedes := ⟨fun _ _ _ => le_trans⟩

instance : Std.Total Precedes := ⟨fun _ _ => le_total _ _⟩

end PathPayment

structure Candidate where
  attacker : String
  victim : String
  assetPair : String
  frontRunId : String
  victimPaymentId : String
  backRunId : String
  recoveryRatio : ℚ
  pathHops : ℕ
  deriving DecidableEq, Repr

structure ValueError where
  message : String
  deriving DecidableEq, Repr

/-- The candidates so far, and the ids of the three payments of each. -/
structure Scan where
  candidates : List Candidate
  seen : List (String × String × String)

section Detection

variable (round : ℚ → ℚ) (maxWindow : ℤ) (minReturnRatio : ℚ)

def recoveryRatio (opening closing : PathPayment) : ℚ :=
  round (closing.destinationAmount / opening.sourceAmount)

def candidate (opening victim closing : PathPayment) : Candidate where
  attacker := opening.sourceAccount
  victim := victim.sourceAccount
  assetPair := opening.sourceAsset.pairSymbol ++ "/" ++ opening.destinationAsset.pairSymbol
  frontRunId := opening.id
  victimPaymentId := victim.id
  backRunId := closing.id
  recoveryRatio := recoveryRatio round opening closing
  pathHops := opening.path.length + victim.path.length + closing.path.length + 3

def scanVictims (opening closing : PathPayment) : List PathPayment → Scan → Scan
  | [], s => s
  | victim :: victims, s =>
    if victim.sourceAccount = opening.sourceAccount ∨ victim.path = [] then
      scanVictims opening closing victims s
    else if (opening.openingAssets ∪ closing.closeAssets) ∩ victim.victimAssets = ∅ then
      scanVictims opening closing victims s
    else if (opening.id, victim.id, closing.id) ∈ s.seen then
      scanVictims opening closing victims s
    else
      { candidates := s.candidates ++ [candidate round opening victim closing]
        seen := (opening.id, victim.id, closing.id) :: s.seen }

/-- `ordered[victim_start:victim_end]`. -/
def victimSlice (ordered : List PathPayment) (firstCloseIdx lastCloseIdx : ℕ)
    (closing : PathPayment) : List PathPayment :=
  let victimEnd := min (bisectLeft (ordered.map (·.timestamp)) closing.timestamp firstCloseIdx)
    lastCloseIdx
  (ordered.drop firstCloseIdx).take (victimEnd - firstCloseIdx)

def scanClosings (ordered : List PathPayment) (firstCloseIdx lastCloseIdx : ℕ)
    (opening : PathPayment) : List PathPayment → Scan → Scan
  | [], s => s
  | closing :: closings, s =>
    if closing.timestamp ≤ opening.timestamp then
      scanClosings ordered firstCloseIdx lastCloseIdx opening closings s
    else if opening.timestamp + maxWindow < closing.timestamp then s
    else if closing.id = opening.id then
      scanClosings ordered firstCloseIdx lastCloseIdx opening closings s
    else if recoveryRatio round opening closing ≤ minReturnRatio then
      scanClosings ordered firstCloseIdx lastCloseIdx opening closings s
    else
      scanClosings ordered firstCloseIdx lastCloseIdx opening closings
        (scanVictims round opening closing
          (victimSlice ordered firstCloseIdx lastCloseIdx closing) s)

/-- The dictionary `closings` maps a key to the payments that have it, in their order. -/
def closings (ordered : List PathPayment) (key : String × String × String) : List PathPayment :=
  ordered.filter (·.pairKey = key)

def scanOpening (ordered : List PathPayment) (s : Scan) (opening : PathPayment × ℕ) : Scan :=
  let timestamps := ordered.map (·.timestamp)
  let firstCloseIdx := bisectRight timestamps opening.1.timestamp (opening.2 + 1)
  let lastCloseIdx := bisectRight timestamps (opening.1.timestamp + maxWindow) firstCloseIdx
  scanClosings round maxWindow minReturnRatio ordered firstCloseIdx lastCloseIdx opening.1
    (closings ordered opening.1.reverseKey) s

def detectPathPaymentSandwiches (payments : List PathPayment) :
    Except ValueError (List Candidate) :=
  if maxWindow < 0 then throw ⟨"max_window must be non-negative"⟩
  else if minReturnRatio < 0 then throw ⟨"min_return_ratio must be non-negative"⟩
  else if payments = [] then pure []
  else
    let ordered := payments.insertionSort PathPayment.Precedes
    let s := ordered.zipIdx.foldl (scanOpening round maxWindow minReturnRatio ordered) ⟨[], []⟩
    pure s.candidates

structure RoundTrip (opening closing : PathPayment) : Prop where
  reversed : closing.pairKey = opening.reverseKey
  later : opening.timestamp < closing.timestamp
  inWindow : closing.timestamp ≤ opening.timestamp + maxWindow
  profit : minReturnRatio < recoveryRatio round opening closing

structure Victim (opening closing victim : PathPayment) : Prop where
  after : opening.timestamp < victim.timestamp
  before : victim.timestamp < closing.timestamp
  other : victim.sourceAccount ≠ opening.sourceAccount
  routed : victim.path ≠ []
  shared : (opening.openingAssets ∪ closing.closeAssets) ∩ victim.victimAssets ≠ ∅

structure Exact (payments : List PathPayment) (candidates : List Candidate) : Prop where
  sound : ∀ c ∈ candidates, ∃ opening ∈ payments, ∃ closing ∈ payments, ∃ victim ∈ payments,
    RoundTrip round maxWindow minReturnRatio opening closing ∧ Victim opening closing victim ∧
      c = candidate round opening victim closing
  complete : ∀ opening ∈ payments, ∀ closing ∈ payments,
    RoundTrip round maxWindow minReturnRatio opening closing →
      (∃ victim ∈ payments, Victim opening closing victim) →
        ∃ c ∈ candidates, c.frontRunId = opening.id ∧ c.backRunId = closing.id
  once : (candidates.map fun c => (c.frontRunId, c.backRunId)).Nodup

end Detection

section Results

variable {round : ℚ → ℚ} {maxWindow : ℤ} {minReturnRatio : ℚ}
  {payments ordered : List PathPayment} {opening closing : PathPayment} {s : Scan}

def Between (opening closing victim : PathPayment) : Prop :=
  opening.timestamp < victim.timestamp ∧ victim.timestamp < closing.timestamp

instance (opening closing victim : PathPayment) : Decidable (Between opening closing victim) :=
  inferInstanceAs (Decidable (_ ∧ _))

def Routed (opening closing victim : PathPayment) : Prop :=
  victim.sourceAccount ≠ opening.sourceAccount ∧ victim.path ≠ [] ∧
    (opening.openingAssets ∪ closing.closeAssets) ∩ victim.victimAssets ≠ ∅

instance (opening closing victim : PathPayment) : Decidable (Routed opening closing victim) :=
  inferInstanceAs (Decidable (_ ∧ _))

theorem victim_iff {victim : PathPayment} : Victim opening closing victim ↔
    Between opening closing victim ∧ Routed opening closing victim :=
  ⟨fun ⟨hafter, hbefore, hother, hrouted, hshared⟩ => ⟨⟨hafter, hbefore⟩, hother, hrouted, hshared⟩,
    fun ⟨⟨hafter, hbefore⟩, hother, hrouted, hshared⟩ =>
      ⟨hafter, hbefore, hother, hrouted, hshared⟩⟩

def InTime (ordered : List PathPayment) : Prop :=
  ordered.Pairwise fun p q => p.timestamp ≤ q.timestamp

theorem inTime_sorted (payments : List PathPayment) :
    InTime (payments.insertionSort PathPayment.Precedes) := by
  refine (List.pairwise_insertionSort _ payments).imp fun {p q} hle => ?_
  rcases Prod.Lex.toLex_le_toLex.mp hle with hlt | ⟨heq, -⟩
  · exact hlt.le
  · exact heq.le

theorem InTime.parted_le (h : InTime ordered) (time : ℤ) :
    Parted ordered fun p => p.timestamp ≤ time :=
  h.imp fun hpq hq => decide_eq_true (hpq.trans (of_decide_eq_true hq))

theorem InTime.parted_lt (h : InTime ordered) (time : ℤ) :
    Parted ordered fun p => p.timestamp < time :=
  h.imp fun hpq hq => decide_eq_true (hpq.trans_lt (of_decide_eq_true hq))

theorem firstCloseIdx_eq (h : InTime ordered) {i : ℕ} (hi : i < ordered.length) :
    bisectRight (ordered.map (·.timestamp)) ordered[i].timestamp (i + 1) =
      ordered.countP fun p => p.timestamp ≤ ordered[i].timestamp := by
  have hcount (time : ℤ) : ((ordered.map (·.timestamp)).countP fun t => t ≤ time) =
      ordered.countP fun p => p.timestamp ≤ time := List.countP_map
  rw [bisectRight_eq (List.pairwise_map.mpr h) ?_, hcount]
  rw [hcount]
  exact ((h.parted_le _).lt_countP_iff hi).mpr (decide_eq_true le_rfl)

/-- What the three bisections cut out are the payments between the two. -/
theorem victimSlice_eq (h : InTime ordered) {i : ℕ} (hi : i < ordered.length)
    (hlater : ordered[i].timestamp < closing.timestamp)
    (hin : closing.timestamp ≤ ordered[i].timestamp + maxWindow) :
    let firstCloseIdx := bisectRight (ordered.map (·.timestamp)) ordered[i].timestamp (i + 1)
    victimSlice ordered firstCloseIdx (bisectRight (ordered.map (·.timestamp))
      (ordered[i].timestamp + maxWindow) firstCloseIdx) closing =
        ordered.filter (Between ordered[i] closing) := by
  have hsorted : (ordered.map (·.timestamp)).Pairwise (· ≤ ·) := List.pairwise_map.mpr h
  have hle (time : ℤ) : ((ordered.map (·.timestamp)).countP fun t => t ≤ time) =
      ordered.countP fun p => p.timestamp ≤ time := List.countP_map
  have hlt (time : ℤ) : ((ordered.map (·.timestamp)).countP fun t => t < time) =
      ordered.countP fun p => p.timestamp < time := List.countP_map
  have hmono {p q : PathPayment → Bool} (hpq : ∀ v, p v → q v) :
      ordered.countP p ≤ ordered.countP q := List.countP_mono_left fun v _ => hpq v
  have hlast : bisectRight (ordered.map (·.timestamp)) (ordered[i].timestamp + maxWindow)
      (ordered.countP fun p => p.timestamp ≤ ordered[i].timestamp) =
        ordered.countP fun p => p.timestamp ≤ ordered[i].timestamp + maxWindow := by
    rw [bisectRight_eq hsorted ?_, hle]
    rw [hle]
    refine hmono fun v hv => ?_
    have := of_decide_eq_true hv
    exact decide_eq_true (by omega)
  have hend : bisectLeft (ordered.map (·.timestamp)) closing.timestamp
      (ordered.countP fun p => p.timestamp ≤ ordered[i].timestamp) =
        ordered.countP fun p => p.timestamp < closing.timestamp := by
    rw [bisectLeft_eq hsorted ?_, hlt]
    rw [hlt]
    exact hmono fun v hv => decide_eq_true ((of_decide_eq_true hv).trans_lt hlater)
  have hmin : (ordered.countP fun p => p.timestamp < closing.timestamp) ≤
      ordered.countP fun p => p.timestamp ≤ ordered[i].timestamp + maxWindow :=
    hmono fun v hv => decide_eq_true ((of_decide_eq_true hv).le.trans hin)
  simp only [firstCloseIdx_eq h hi]
  rw [victimSlice, hlast, hend, min_eq_left hmin,
    slice_eq_filter (h.parted_le _) (h.parted_lt _) fun v hv =>
      decide_eq_true ((of_decide_eq_true hv).trans_lt hlater)]
  refine List.filter_congr fun v _ => ?_
  simp [Between, and_comm]

theorem scanVictims_eq (victims : List PathPayment) : scanVictims round opening closing victims s =
    match victims.find? fun v => Routed opening closing v ∧
      (opening.id, v.id, closing.id) ∉ s.seen with
    | none => s
    | some v => { candidates := s.candidates ++ [candidate round opening v closing]
                  seen := (opening.id, v.id, closing.id) :: s.seen } := by
  induction victims with
  | nil => rfl
  | cons v victims ih =>
    rw [scanVictims, List.find?_cons]
    by_cases hself : v.sourceAccount = opening.sourceAccount ∨ v.path = []
    · have hnot : ¬ Routed opening closing v := fun h => hself.elim h.1 h.2.1
      simp only [if_pos hself, hnot, false_and, decide_false]
      exact ih
    · obtain ⟨hother, hrouted⟩ := not_or.mp hself
      rw [if_neg hself]
      by_cases hshared : (opening.openingAssets ∪ closing.closeAssets) ∩ v.victimAssets = ∅
      · have hnot : ¬ Routed opening closing v := fun h => h.2.2 hshared
        simp only [if_pos hshared, hnot, false_and, decide_false]
        exact ih
      · have hyes : Routed opening closing v := ⟨hother, hrouted, hshared⟩
        rw [if_neg hshared]
        by_cases hseen : (opening.id, v.id, closing.id) ∈ s.seen
        · rw [if_pos hseen]
          simp only [hseen, not_true_eq_false, and_false, decide_false]
          exact ih
        · rw [if_neg hseen]
          simp only [hyes, hseen, not_false_eq_true, and_self, decide_true]

def visit (round : ℚ → ℚ) (ordered : List PathPayment) (s : Scan)
    (pair : PathPayment × PathPayment) : Scan :=
  scanVictims round pair.1 pair.2 (ordered.filter (Between pair.1 pair.2)) s

instance (round : ℚ → ℚ) (maxWindow : ℤ) (minReturnRatio : ℚ) (opening closing : PathPayment) :
    Decidable (RoundTrip round maxWindow minReturnRatio opening closing) :=
  decidable_of_iff (closing.pairKey = opening.reverseKey ∧ opening.timestamp < closing.timestamp ∧
      closing.timestamp ≤ opening.timestamp + maxWindow ∧
        minReturnRatio < recoveryRatio round opening closing)
    ⟨fun ⟨hkey, hlater, hin, hprofit⟩ => ⟨hkey, hlater, hin, hprofit⟩,
      fun ⟨hkey, hlater, hin, hprofit⟩ => ⟨hkey, hlater, hin, hprofit⟩⟩

def roundTrips (round : ℚ → ℚ) (maxWindow : ℤ) (minReturnRatio : ℚ) (ordered : List PathPayment)
    (opening : PathPayment) : List (PathPayment × PathPayment) :=
  (ordered.filter (RoundTrip round maxWindow minReturnRatio opening)).map (opening, ·)

variable (round maxWindow minReturnRatio) in
theorem scanClosings_eq (h : InTime ordered) {i : ℕ} (hi : i < ordered.length)
    {l : List PathPayment} (hl : InTime l) (hkey : ∀ c ∈ l, c.pairKey = ordered[i].reverseKey)
    (hid : ∀ c ∈ l, c.id = ordered[i].id → c.timestamp = ordered[i].timestamp) :
    let firstCloseIdx := bisectRight (ordered.map (·.timestamp)) ordered[i].timestamp (i + 1)
    scanClosings round maxWindow minReturnRatio ordered firstCloseIdx
      (bisectRight (ordered.map (·.timestamp)) (ordered[i].timestamp + maxWindow) firstCloseIdx)
      ordered[i] l s =
    ((l.filter (RoundTrip round maxWindow minReturnRatio ordered[i])).map (ordered[i], ·)).foldl
      (visit round ordered) s := by
  intro firstCloseIdx
  induction l generalizing s with
  | nil => rfl
  | cons c l ih =>
    obtain ⟨hfirst, hrest⟩ := List.pairwise_cons.mp hl
    obtain ⟨hckey, hlkey⟩ := List.forall_mem_cons.mp hkey
    obtain ⟨hcid, hlid⟩ := List.forall_mem_cons.mp hid
    have hnext {s : Scan} := ih (s := s) hrest hlkey hlid
    rw [scanClosings]
    by_cases hlater : c.timestamp ≤ ordered[i].timestamp
    · have hnot : ¬ RoundTrip round maxWindow minReturnRatio ordered[i] c :=
        fun htrip => absurd hlater (not_le.mpr htrip.later)
      rw [if_pos hlater, List.filter_cons_of_neg (by simpa using hnot), hnext]
    · rw [if_neg hlater]
      by_cases hlate : ordered[i].timestamp + maxWindow < c.timestamp
      · -- Every later closing comes too late as well.
        have hnone (c' : PathPayment) (hc' : c' ∈ c :: l) :
            ¬ decide (RoundTrip round maxWindow minReturnRatio ordered[i] c') := by
          have hle : c.timestamp ≤ c'.timestamp := by
            rcases List.mem_cons.mp hc' with rfl | hc'
            · exact le_rfl
            · exact hfirst c' hc'
          intro htrip
          have := (of_decide_eq_true htrip).inWindow
          omega
        rw [if_pos hlate, List.filter_eq_nil_iff.mpr hnone]
        rfl
      · rw [if_neg hlate]
        have hdiffer : c.id ≠ ordered[i].id := fun heq => hlater (hcid heq).le
        rw [if_neg hdiffer]
        by_cases hprofit : recoveryRatio round ordered[i] c ≤ minReturnRatio
        · have hnot : ¬ RoundTrip round maxWindow minReturnRatio ordered[i] c :=
            fun htrip => absurd hprofit (not_le.mpr htrip.profit)
          rw [if_pos hprofit, List.filter_cons_of_neg (by simpa using hnot), hnext]
        · have htrip : RoundTrip round maxWindow minReturnRatio ordered[i] c :=
            ⟨hckey, not_le.mp hlater, not_lt.mp hlate, not_le.mp hprofit⟩
          have hslice := victimSlice_eq h hi (not_le.mp hlater) (not_lt.mp hlate)
          rw [if_neg hprofit, List.filter_cons_of_pos (by simpa using htrip), List.map_cons,
            List.foldl_cons, hnext, visit, ← hslice]

theorem scanOpening_eq (h : InTime ordered)
    (hid : ∀ p ∈ ordered, ∀ q ∈ ordered, p.id = q.id → p = q) {e : PathPayment × ℕ}
    (he : e ∈ ordered.zipIdx) : scanOpening round maxWindow minReturnRatio ordered s e =
      (roundTrips round maxWindow minReturnRatio ordered e.1).foldl (visit round ordered) s := by
  obtain ⟨opening, i⟩ := e
  have hget : ordered[i]? = some opening := List.mem_zipIdx_iff_getElem?.mp he
  obtain ⟨hi, rfl⟩ := List.getElem?_eq_some_iff.mp hget
  have hloop := scanClosings_eq round maxWindow minReturnRatio (s := s) h hi
    (l := closings ordered ordered[i].reverseKey) (h.filter _)
    (fun c hc => of_decide_eq_true (List.mem_filter.mp hc).2)
    (fun c hc hsame => by rw [hid c (List.mem_of_mem_filter hc) _ (List.getElem_mem hi) hsame])
  have htrips : (closings ordered ordered[i].reverseKey).filter
      (RoundTrip round maxWindow minReturnRatio ordered[i]) =
        ordered.filter (RoundTrip round maxWindow minReturnRatio ordered[i]) := by
    rw [closings, List.filter_filter]
    refine List.filter_congr fun c _ => ?_
    rw [Bool.and_eq_left_iff_imp]
    exact fun htrip => decide_eq_true (of_decide_eq_true htrip).reversed
  rw [scanOpening, roundTrips, ← htrips]
  exact hloop

variable (round maxWindow minReturnRatio) in
theorem scanOpenings_eq (h : InTime ordered)
    (hid : ∀ p ∈ ordered, ∀ q ∈ ordered, p.id = q.id → p = q) :
    ordered.zipIdx.foldl (scanOpening round maxWindow minReturnRatio ordered) s =
      (ordered.flatMap (roundTrips round maxWindow minReturnRatio ordered)).foldl
        (visit round ordered) s := by
  suffices hall : ∀ (l : List (PathPayment × ℕ)) (s : Scan), (∀ e ∈ l, e ∈ ordered.zipIdx) →
      l.foldl (scanOpening round maxWindow minReturnRatio ordered) s =
        ((l.map Prod.fst).flatMap (roundTrips round maxWindow minReturnRatio ordered)).foldl
          (visit round ordered) s by
    have hzip := hall ordered.zipIdx s fun _ => id
    rwa [List.zipIdx_map_fst] at hzip
  intro l
  induction l with
  | nil => exact fun _ _ => rfl
  | cons e l ih =>
    intro s hmem
    obtain ⟨he, hl⟩ := List.forall_mem_cons.mp hmem
    rw [List.foldl_cons, ih _ hl, scanOpening_eq h hid he, List.map_cons, List.flatMap_cons,
      List.foldl_append]

def found (round : ℚ → ℚ) (ordered : List PathPayment) (pair : PathPayment × PathPayment) :
    Option Candidate :=
  (ordered.find? fun v => Between pair.1 pair.2 v ∧ Routed pair.1 pair.2 v).map
    fun v => candidate round pair.1 v pair.2

def ids (pair : PathPayment × PathPayment) : String × String := (pair.1.id, pair.2.id)

def Unseen (s : Scan) (pair : PathPayment × PathPayment) : Prop :=
  ∀ sig ∈ s.seen, (sig.1, sig.2.2) ≠ ids pair

variable (round ordered) in
theorem visit_unseen {pair : PathPayment × PathPayment} (h : Unseen s pair) :
    (visit round ordered s pair).candidates =
        s.candidates ++ (found round ordered pair).toList ∧
      ∀ pair', ids pair' ≠ ids pair → Unseen s pair' →
        Unseen (visit round ordered s pair) pair' := by
  have hfresh (v : PathPayment) : (pair.1.id, v.id, pair.2.id) ∉ s.seen :=
    fun hmem => h _ hmem rfl
  have hfind : ((ordered.filter (Between pair.1 pair.2)).find? fun v =>
      Routed pair.1 pair.2 v ∧ (pair.1.id, v.id, pair.2.id) ∉ s.seen) =
        ordered.find? fun v => Between pair.1 pair.2 v ∧ Routed pair.1 pair.2 v := by
    rw [List.find?_filter]
    congr 1
    funext v
    simp [hfresh v]
  rw [visit, scanVictims_eq, hfind, found]
  cases ordered.find? fun v => Between pair.1 pair.2 v ∧ Routed pair.1 pair.2 v with
  | none => exact ⟨(List.append_nil _).symm, fun _ _ hunseen => hunseen⟩
  | some v =>
    refine ⟨rfl, fun pair' hne hunseen sig hsig => ?_⟩
    rcases List.mem_cons.mp hsig with rfl | hsig
    · exact hne.symm
    · exact hunseen sig hsig

variable (round ordered) in
theorem foldl_visit {pairs : List (PathPayment × PathPayment)} (hnodup : (pairs.map ids).Nodup)
    (h : ∀ pair ∈ pairs, Unseen s pair) : (pairs.foldl (visit round ordered) s).candidates =
      s.candidates ++ pairs.filterMap (found round ordered) := by
  induction pairs generalizing s with
  | nil => exact (List.append_nil _).symm
  | cons pair pairs ih =>
    obtain ⟨hfirst, hrest⟩ := List.nodup_cons.mp hnodup
    obtain ⟨hpair, hpairs⟩ := List.forall_mem_cons.mp h
    obtain ⟨hcandidates, hkept⟩ := visit_unseen round ordered hpair
    have hunseen (pair' : PathPayment × PathPayment) (hmem : pair' ∈ pairs) :
        Unseen (visit round ordered s pair) pair' := by
      apply hkept pair' _ (hpairs pair' hmem)
      exact fun heq => hfirst (heq ▸ List.mem_map_of_mem hmem)
    rw [List.foldl_cons, ih hrest hunseen, hcandidates, List.filterMap_cons, List.append_assoc]
    cases found round ordered pair with
    | none => rfl
    | some c => rfl

theorem candidate_ids {pair : PathPayment × PathPayment} {c : Candidate}
    (h : c ∈ found round ordered pair) : (c.frontRunId, c.backRunId) = ids pair := by
  obtain ⟨v, -, rfl⟩ := Option.map_eq_some_iff.mp h
  rfl

def allRoundTrips (round : ℚ → ℚ) (maxWindow : ℤ) (minReturnRatio : ℚ)
    (ordered : List PathPayment) : List (PathPayment × PathPayment) :=
  ordered.flatMap (roundTrips round maxWindow minReturnRatio ordered)

theorem mem_roundTrips {pair : PathPayment × PathPayment} :
    pair ∈ roundTrips round maxWindow minReturnRatio ordered opening ↔
      pair.1 = opening ∧ pair.2 ∈ ordered ∧
        RoundTrip round maxWindow minReturnRatio pair.1 pair.2 := by
  rw [roundTrips, List.mem_map]
  constructor
  · rintro ⟨closing, hmem, rfl⟩
    obtain ⟨hmem, htrip⟩ := List.mem_filter.mp hmem
    exact ⟨rfl, hmem, of_decide_eq_true htrip⟩
  · rintro ⟨rfl, hmem, htrip⟩
    exact ⟨pair.2, List.mem_filter.mpr ⟨hmem, decide_eq_true htrip⟩, rfl⟩

theorem mem_allRoundTrips {pair : PathPayment × PathPayment} :
    pair ∈ allRoundTrips round maxWindow minReturnRatio ordered ↔
      pair.1 ∈ ordered ∧ pair.2 ∈ ordered ∧
        RoundTrip round maxWindow minReturnRatio pair.1 pair.2 := by
  simp only [allRoundTrips, List.mem_flatMap, mem_roundTrips]
  constructor
  · rintro ⟨opening, hopening, rfl, hrest⟩
    exact ⟨hopening, hrest⟩
  · rintro ⟨hopening, hrest⟩
    exact ⟨_, hopening, rfl, hrest⟩

variable (round maxWindow minReturnRatio) in
theorem allRoundTrips_nodup (h : (ordered.map PathPayment.id).Nodup) :
    ((allRoundTrips round maxWindow minReturnRatio ordered).map ids).Nodup := by
  have hid := List.inj_on_of_nodup_map h
  have hordered : ordered.Nodup := .of_map _ h
  apply List.Nodup.map_on
  · intro pair hpair pair' hpair' heq
    obtain ⟨hfirst, hsecond, -⟩ := mem_allRoundTrips.mp hpair
    obtain ⟨hfirst', hsecond', -⟩ := mem_allRoundTrips.mp hpair'
    obtain ⟨hone, htwo⟩ := Prod.mk.inj heq
    exact Prod.ext (hid hfirst hfirst' hone) (hid hsecond hsecond' htwo)
  · refine List.nodup_flatMap.mpr ⟨fun opening _ => ?_, hordered.imp fun hne => ?_⟩
    · exact (hordered.filter _).map fun c c' heq => (Prod.mk.inj heq).2
    · intro pair hpair hpair'
      exact hne ((mem_roundTrips.mp hpair).1.symm.trans (mem_roundTrips.mp hpair').1)

theorem exact_found (hnodup : (ordered.map PathPayment.id).Nodup)
    (hmem : ∀ p, p ∈ ordered ↔ p ∈ payments) :
    Exact round maxWindow minReturnRatio payments
      ((allRoundTrips round maxWindow minReturnRatio ordered).filterMap (found round ordered)) where
  sound c hc := by
    obtain ⟨⟨opening, closing⟩, hpair, hfound⟩ := List.mem_filterMap.mp hc
    obtain ⟨hopening, hclosing, htrip⟩ := mem_allRoundTrips.mp hpair
    obtain ⟨victim, hfind, rfl⟩ := Option.map_eq_some_iff.mp hfound
    have hvictim : Victim opening closing victim :=
      victim_iff.mpr (by simpa using List.find?_some hfind)
    exact ⟨opening, (hmem _).mp hopening, closing, (hmem _).mp hclosing, victim,
      (hmem _).mp (List.mem_of_find?_eq_some hfind), htrip, hvictim, rfl⟩
  complete opening hopening closing hclosing htrip hvictim := by
    obtain ⟨victim, hin, hvictim⟩ := hvictim
    have hfind : (ordered.find? fun v =>
        Between opening closing v ∧ Routed opening closing v).isSome := by
      rw [List.find?_isSome]
      exact ⟨victim, (hmem _).mpr hin, decide_eq_true (victim_iff.mp hvictim)⟩
    obtain ⟨first, hfirst⟩ := Option.isSome_iff_exists.mp hfind
    have hpair : (opening, closing) ∈ allRoundTrips round maxWindow minReturnRatio ordered :=
      mem_allRoundTrips.mpr ⟨(hmem _).mpr hopening, (hmem _).mpr hclosing, htrip⟩
    refine ⟨candidate round opening first closing, List.mem_filterMap.mpr
      ⟨(opening, closing), hpair, ?_⟩, rfl, rfl⟩
    rw [found, hfirst]
    rfl
  once := by
    have hpairs := allRoundTrips_nodup round maxWindow minReturnRatio hnodup
    rw [List.Nodup, List.pairwise_map] at hpairs ⊢
    refine List.pairwise_filterMap.mpr (hpairs.imp fun hne c hc c' hc' => ?_)
    rw [candidate_ids hc, candidate_ids hc']
    exact hne

theorem detect_eq (hnodup : (payments.map PathPayment.id).Nodup) (hwindow : 0 ≤ maxWindow)
    (hratio : 0 ≤ minReturnRatio) :
    detectPathPaymentSandwiches round maxWindow minReturnRatio payments =
      let ordered := payments.insertionSort PathPayment.Precedes
      .ok ((allRoundTrips round maxWindow minReturnRatio ordered).filterMap
        (found round ordered)) := by
  have hperm := List.perm_insertionSort PathPayment.Precedes payments
  have hids := (hperm.map PathPayment.id).nodup_iff.mpr hnodup
  rw [detectPathPaymentSandwiches, if_neg (not_lt.mpr hwindow), if_neg (not_lt.mpr hratio)]
  by_cases hempty : payments = []
  · rw [if_pos hempty, hempty]
    rfl
  · rw [if_neg hempty]
    have hloop := scanOpenings_eq round maxWindow minReturnRatio (s := ⟨[], []⟩)
      (inTime_sorted payments)
      fun p hp q hq heq => List.inj_on_of_nodup_map hids hp hq heq
    simp only [hloop]
    have hfound := foldl_visit round (payments.insertionSort PathPayment.Precedes) (s := ⟨[], []⟩)
      (allRoundTrips_nodup round maxWindow minReturnRatio hids)
      fun _ _ sig hsig => absurd hsig List.not_mem_nil
    exact congrArg Except.ok hfound

theorem insertionSort_eq_of_perm {payments' : List PathPayment}
    (hnodup : (payments.map PathPayment.id).Nodup) (hperm : payments'.Perm payments) :
    payments'.insertionSort PathPayment.Precedes =
      payments.insertionSort PathPayment.Precedes := by
  apply List.Perm.eq_of_pairwise _ (List.pairwise_insertionSort _ _)
    (List.pairwise_insertionSort _ _)
  · exact (List.perm_insertionSort _ _).trans
      (hperm.trans (List.perm_insertionSort _ _).symm)
  · intro p q hp hq hpq hqp
    have hp' := hperm.mem_iff.mp ((List.mem_insertionSort _).mp hp)
    have hq' := (List.mem_insertionSort _).mp hq
    have hsame : (p.timestamp, p.id) = (q.timestamp, q.id) := toLex.injective (le_antisymm hpq hqp)
    exact List.inj_on_of_nodup_map hnodup hp' hq' (Prod.mk.inj hsame).2

/-- Every pair of an opening and its closing that has a victim is reported once, and nothing else
is, whatever the order of the payments. -/
theorem detect_exact (round : ℚ → ℚ) {maxWindow : ℤ} {minReturnRatio : ℚ}
    {payments : List PathPayment} (hnodup : (payments.map PathPayment.id).Nodup)
    (hwindow : 0 ≤ maxWindow) (hratio : 0 ≤ minReturnRatio) :
    ∃ candidates, Exact round maxWindow minReturnRatio payments candidates ∧
      ∀ payments', payments'.Perm payments →
        detectPathPaymentSandwiches round maxWindow minReturnRatio payments' = .ok candidates := by
  have hperm := List.perm_insertionSort PathPayment.Precedes payments
  refine ⟨_, exact_found ((hperm.map PathPayment.id).nodup_iff.mpr hnodup)
    (fun p => hperm.mem_iff), fun payments' hpayments => ?_⟩
  have hnodup' := (hpayments.map PathPayment.id).nodup_iff.mpr hnodup
  rw [detect_eq hnodup' hwindow hratio, insertionSort_eq_of_perm hnodup hpayments]

end Results

section Examples

def lumens : Asset := ⟨"XLM", none, fun _ => rfl⟩

def dollars : Asset := ⟨"USDC", some "GA5Z", nofun⟩

def payment (id account : String) (timestamp : ℤ) (source destination : Asset) (amount : ℚ)
    (h : 0 < amount) : PathPayment where
  id := id
  timestamp := timestamp
  sourceAccount := account
  sourceAsset := source
  destinationAsset := destination
  sourceAmount := 100
  destinationAmount := amount
  path := [dollars]
  sourceAmount_pos := by decide +kernel
  destinationAmount_pos := h

/-- The victim is routed over dollars, and a second one at the time of the opening. -/
def routed : List PathPayment :=
  [payment "close" "GATT" 20 dollars lumens 110 (by decide +kernel),
    payment "victim" "GVIC" 10 lumens lumens 90 (by decide +kernel),
    payment "open" "GATT" 0 lumens dollars 95 (by decide +kernel),
    payment "tied" "GTIE" 0 lumens lumens 90 (by decide +kernel)]

theorem detect_exact_routed :
    ∃ candidates, Exact id 300000000 1 routed candidates ∧ ∀ payments', payments'.Perm routed →
      detectPathPaymentSandwiches id 300000000 1 payments' = .ok candidates :=
  detect_exact id (by decide) (by decide) (by decide +kernel)

end Examples

end PathPaymentSandwiches
