import LedgerLens.Dictionaries
import Mathlib.Algebra.BigOperators.Group.List.Basic
import Mathlib.Algebra.Order.BigOperators.Group.List
import Mathlib.Algebra.Order.Field.Rat
import Mathlib.Data.List.Induction
import Mathlib.Data.List.Sort
import Mathlib.Data.PNat.Defs
import Mathlib.Logic.Function.Basic
import Mathlib.Tactic.Linarith
import Mathlib.Tactic.Ring

/-!
# Temporal trade graphs

`TemporalGraphBuilder` of `ingestion/graph_builder.py`: the trades of a window in slices, each with
the index of the wallets that are tracked by then. Times are microseconds, amounts exact rationals.
-/
namespace TemporalGraph

open Dictionaries

inductive TradeType where
  | orderbook
  | liquidityPool
  deriving DecidableEq

/-- A pool has no account. -/
abbrev Wallet := Option String

structure Trade where
  ledgerCloseTime : ℤ
  baseAccount : String
  counterAccount : Wallet
  baseAmount : ℚ
  price : ℚ
  tradeType : TradeType
  deriving DecidableEq

structure EdgeAttr where
  baseAmount : ℚ
  price : ℚ
  isPool : ℚ
  deriving DecidableEq

structure Edge where
  source : Wallet
  target : Wallet
  attr : EdgeAttr
  deriving DecidableEq

def Trade.edge (t : Trade) : Edge :=
  ⟨some t.baseAccount, t.counterAccount,
    ⟨t.baseAmount, t.price, if t.tradeType = .liquidityPool then 1 else 0⟩⟩

structure WalletNodeFeatures where
  accountAgeDays : ℚ
  totalVolume : ℚ
  benfordMad : ℚ
  fundingSourceClusterId : ℤ
  deriving DecidableEq

/-- The wallets are in the order of their indices. -/
structure GraphSnapshot where
  start : ℤ
  stop : ℤ
  wallets : List Wallet
  nodeFeatures : List (List ℚ)
  edgeIndex : List (ℕ × ℕ)
  edgeAttr : List EdgeAttr
  deriving DecidableEq

structure Stats where
  trackedWallets : ℕ
  peakTrackedWallets : ℕ
  evictedWallets : ℕ
  deriving DecidableEq

structure Config where
  bucketHours : ℤ
  maxNodeDegree : ℕ
  retentionBuckets : Option ℕ+

def Config.bucket (c : Config) : ℤ := c.bucketHours * 3600000000

def degree (edges : List Edge) (w : Wallet) : ℕ :=
  (edges.map fun e => (if e.source = w then 1 else 0) + if e.target = w then 1 else 0).sum

structure Capping where
  kept : List Edge
  perWalletKept : Wallet → ℕ

/-- One edge, where `overCap` are the wallets above the cap. -/
def capEdge (maxNodeDegree : ℕ) (overCap : Wallet → Bool) (s : Capping) (e : Edge) : Capping :=
  if ¬ overCap e.source ∧ ¬ overCap e.target then { s with kept := s.kept ++ [e] }
  else if (overCap e.source ∧ maxNodeDegree ≤ s.perWalletKept e.source) ∨
      (overCap e.target ∧ maxNodeDegree ≤ s.perWalletKept e.target) then s
  else
    { kept := s.kept ++ [e]
      perWalletKept := [e.source, e.target].foldl (fun kept w =>
        if overCap w then Function.update kept w (kept w + 1) else kept) s.perWalletKept }

def byAmount (edges : List Edge) : List Edge :=
  edges.mergeSort fun a b => decide (b.attr.baseAmount ≤ a.attr.baseAmount)

def capHighDegree (maxNodeDegree : ℕ) (edges : List Edge) : List Edge :=
  let overCap (w : Wallet) : Bool := decide (maxNodeDegree < degree edges w)
  if edges.all fun e => ¬ overCap e.source ∧ ¬ overCap e.target then edges
  else ((byAmount edges).foldl (capEdge maxNodeDegree overCap) ⟨[], fun _ => 0⟩).kept

def takeSlice (start stop : ℤ) : List Trade → List Edge × List Trade
  | [] => ([], [])
  | t :: rest =>
    if t.ledgerCloseTime < stop then
      let (edges, left) := takeSlice start stop rest
      if t.ledgerCloseTime < start ∨ some t.baseAccount = t.counterAccount then (edges, left)
      else (t.edge :: edges, left)
    else ([], t :: rest)

/-- `wallet_index` and `last_seen`, which have the same keys: the wallets in the order of their
indices, with the bucket that each was last seen in. -/
abbrev Tracked := Dictionary Wallet ℕ

def see (bucketNo : ℕ) (tracked : Tracked) (edges : List Edge) : Tracked :=
  (edges.flatMap fun e => [e.source, e.target]).foldl (fun tracked w => tracked.set w bucketNo)
    tracked

def evictExpired (retentionBuckets : ℕ+) (bucketNo : ℕ) (tracked : Tracked) : Tracked :=
  let cutoff : ℤ := (bucketNo : ℤ) - (retentionBuckets : ℕ)
  tracked.filterMap fun _ (seen : ℕ) => if (seen : ℤ) ≤ cutoff then none else some seen

def track (c : Config) (bucketNo : ℕ) (tracked : Tracked) (edges : List Edge) : Tracked :=
  match c.retentionBuckets with
  | none => see bucketNo tracked edges
  | some retentionBuckets => evictExpired retentionBuckets bucketNo (see bucketNo tracked edges)

def featureRow (features : Option WalletNodeFeatures) : List ℚ :=
  match features with
  | none => [0, 0, 0, 0]
  | some f => [f.accountAgeDays, f.totalVolume, f.benfordMad, f.fundingSourceClusterId]

def materializeSnapshot (start stop : ℤ) (wallets : List Wallet) (edges : List Edge)
    (nodeFeatureLookup : Wallet → Option WalletNodeFeatures) : GraphSnapshot where
  start := start
  stop := stop
  wallets := wallets
  nodeFeatures := wallets.map fun w => featureRow (nodeFeatureLookup w)
  edgeIndex := edges.map fun e => (wallets.idxOf e.source, wallets.idxOf e.target)
  edgeAttr := edges.map Edge.attr

structure State where
  sliceStart : ℤ
  trades : List Trade
  bucketNo : ℕ
  tracked : Tracked
  stats : Stats
  snapshots : List GraphSnapshot

def pass (c : Config) (nodeFeatureLookup : Wallet → Option WalletNodeFeatures) (endTime : ℤ)
    (s : State) : State :=
  let sliceEnd := min (s.sliceStart + c.bucket) endTime
  let (edges, trades) := takeSlice s.sliceStart sliceEnd s.trades
  let tracked := track c s.bucketNo s.tracked edges
  { sliceStart := sliceEnd
    trades := trades
    bucketNo := s.bucketNo + 1
    tracked := tracked
    stats :=
      { trackedWallets := tracked.keys.length
        peakTrackedWallets := max s.stats.peakTrackedWallets tracked.keys.length
        evictedWallets :=
          s.stats.evictedWallets +
            ((see s.bucketNo s.tracked edges).keys.length - tracked.keys.length) }
    snapshots := s.snapshots ++ [materializeSnapshot s.sliceStart sliceEnd tracked.keys
      (capHighDegree c.maxNodeDegree edges) nodeFeatureLookup] }

def slices (c : Config) (nodeFeatureLookup : Wallet → Option WalletNodeFeatures) (endTime : ℤ) :
    ℕ → State → Option State
  | 0, s => if s.sliceStart < endTime then none else some s
  | fuel + 1, s =>
    if s.sliceStart < endTime then
      slices c nodeFeatureLookup endTime fuel (pass c nodeFeatureLookup endTime s)
    else some s

inductive BuildError where
  | attributeError
  deriving DecidableEq

def sortTrades (trades : List Trade) : List Trade :=
  trades.mergeSort fun a b => decide (a.ledgerCloseTime ≤ b.ledgerCloseTime)

/-- The last line hashes the first three wallets for the log, and a pool has no text to hash. -/
def buildSnapshots (fuel : ℕ) (c : Config) (trades : List Trade) (lookbackDays : ℤ)
    (nodeFeatureLookup : Wallet → Option WalletNodeFeatures) (endTime : ℤ) (stats : Stats) :
    Option (Except BuildError (List GraphSnapshot × Stats)) := do
  let s ← slices c nodeFeatureLookup endTime fuel
    ⟨endTime - lookbackDays * 86400000000, sortTrades trades, 0, .empty, stats, []⟩
  return if none ∈ s.tracked.keys.take 3 then .error .attributeError
    else .ok (s.snapshots, s.stats)

section

variable {edges kept done : List Edge} {e : Edge} {w : Wallet} {maxNodeDegree : ℕ}
  {overCap : Wallet → Bool}

def Edge.touches (e : Edge) (w : Wallet) : ℕ :=
  (if e.source = w then 1 else 0) + if e.target = w then 1 else 0

theorem degree_append : degree (edges ++ kept) w = degree edges w + degree kept w := by
  rw [degree, List.map_append, List.sum_append]
  rfl

theorem degree_singleton : degree [e] w = e.touches w := by
  rw [degree, List.map_singleton, List.sum_singleton, Edge.touches]

theorem degree_eq_of_perm (h : edges.Perm kept) : degree edges w = degree kept w :=
  (h.map _).sum_eq

theorem degree_le_of_subperm (h : kept.Subperm edges) : degree kept w ≤ degree edges w := by
  obtain ⟨l, hperm, hsublist⟩ := h
  rw [← degree_eq_of_perm hperm]
  exact (hsublist.map _).sum_le_sum fun _ _ => Nat.zero_le _

theorem touches_eq_zero : e.touches w = 0 ↔ w ≠ e.source ∧ w ≠ e.target := by
  unfold Edge.touches
  split_ifs <;> simp_all [eq_comm]

theorem touches_le_one (h : e.source ≠ e.target) : e.touches w ≤ 1 := by
  unfold Edge.touches
  split_ifs with hsource htarget
  · exact absurd (hsource.trans htarget.symm) h
  all_goals decide

theorem exists_of_degree_pos (h : 0 < degree edges w) :
    ∃ e ∈ edges, w = e.source ∨ w = e.target := by
  by_contra hnone
  have hzero : degree edges w = 0 := by
    apply List.sum_eq_zero
    intro n hn
    obtain ⟨e, he, rfl⟩ := List.mem_map.mp hn
    exact touches_eq_zero.mpr ⟨fun hsource => hnone ⟨e, he, .inl hsource⟩,
      fun htarget => hnone ⟨e, he, .inr htarget⟩⟩
  omega

theorem count_end {counts : Wallet → ℕ} {end_ : Wallet} (hw : overCap w) :
    (if overCap end_ then Function.update counts end_ (counts end_ + 1) else counts) w =
      counts w + if end_ = w then 1 else 0 := by
  rcases eq_or_ne end_ w with rfl | hne
  · rw [if_pos hw, Function.update_self, if_pos rfl]
  · rw [if_neg hne, Nat.add_zero]
    split_ifs
    · exact Function.update_of_ne hne.symm _ _
    · rfl

/-- What is known after some edges in the order of their amounts. -/
structure Capped (maxNodeDegree : ℕ) (overCap : Wallet → Bool) (done : List Edge) (s : Capping) :
    Prop where
  sublist : List.Sublist s.kept done
  counts : ∀ w, overCap w → s.perWalletKept w = degree s.kept w
  bounded : ∀ w, overCap w → degree s.kept w ≤ maxNodeDegree
  dropped : ∀ e ∈ done, e ∉ s.kept → ∃ w, (w = e.source ∨ w = e.target) ∧ overCap w ∧
    maxNodeDegree ≤
      degree (s.kept.filter fun e' => decide (e.attr.baseAmount ≤ e'.attr.baseAmount)) w

theorem Capped.keep {s t : Capping} (h : Capped maxNodeDegree overCap done s)
    (hkept : t.kept = s.kept ++ [e])
    (hcounts : ∀ w, overCap w → t.perWalletKept w = s.perWalletKept w + e.touches w)
    (hbounded : ∀ w, overCap w → degree s.kept w + e.touches w ≤ maxNodeDegree) :
    Capped maxNodeDegree overCap (done ++ [e]) t where
  sublist := by
    rw [hkept]
    exact h.sublist.append (List.Sublist.refl _)
  counts w hw := by rw [hkept, degree_append, degree_singleton, hcounts w hw, h.counts w hw]
  bounded w hw := by
    rw [hkept, degree_append, degree_singleton]
    exact hbounded w hw
  dropped e' he' hmissing := by
    rw [hkept, List.mem_append, not_or] at hmissing
    rcases List.mem_append.mp he' with he' | he'
    · obtain ⟨w, hend, hw, hfull⟩ := h.dropped e' he' hmissing.1
      refine ⟨w, hend, hw, hfull.trans ?_⟩
      rw [hkept, List.filter_append, degree_append]
      exact Nat.le_add_right _ _
    · exact absurd he' hmissing.2

theorem Capped.drop {s : Capping} (h : Capped maxNodeDegree overCap done s)
    (hsorted : ∀ e' ∈ done, e.attr.baseAmount ≤ e'.attr.baseAmount)
    (hw : w = e.source ∨ w = e.target) (hover : overCap w)
    (hfull : maxNodeDegree ≤ s.perWalletKept w) :
    Capped maxNodeDegree overCap (done ++ [e]) s where
  sublist := h.sublist.trans (List.sublist_append_left done [e])
  counts := h.counts
  bounded := h.bounded
  dropped e' he' hmissing := by
    rcases List.mem_append.mp he' with he' | he'
    · exact h.dropped e' he' hmissing
    · rw [List.mem_singleton.mp he']
      refine ⟨w, hw, hover, ?_⟩
      rw [List.filter_eq_self.mpr fun e'' he'' =>
        decide_eq_true (hsorted e'' (h.sublist.subset he'')), ← h.counts w hover]
      exact hfull

theorem Capped.step {s : Capping} (h : Capped maxNodeDegree overCap done s)
    (hsorted : ∀ e' ∈ done, e.attr.baseAmount ≤ e'.attr.baseAmount)
    (hloop : e.source ≠ e.target) :
    Capped maxNodeDegree overCap (done ++ [e]) (capEdge maxNodeDegree overCap s e) := by
  unfold capEdge
  split_ifs with hfree hfull
  · have huntouched (w : Wallet) (hw : overCap w = true) : e.touches w = 0 :=
      touches_eq_zero.mpr ⟨fun hsource => hfree.1 (hsource ▸ hw),
        fun htarget => hfree.2 (htarget ▸ hw)⟩
    refine h.keep rfl (fun w hw => ?_) fun w hw => ?_
    · rw [huntouched w hw, Nat.add_zero]
    · rw [huntouched w hw, Nat.add_zero]
      exact h.bounded w hw
  · rcases hfull with ⟨hover, hfull⟩ | ⟨hover, hfull⟩
    · exact h.drop hsorted (.inl rfl) hover hfull
    · exact h.drop hsorted (.inr rfl) hover hfull
  · rw [not_or, not_and, not_and, not_le, not_le] at hfull
    refine h.keep rfl (fun w hw => ?_) fun w hw => ?_
    · rw [Edge.touches, ← Nat.add_assoc]
      exact (count_end hw).trans (congrArg (· + _) (count_end hw))
    · rw [← h.counts w hw]
      by_cases htouch : w = e.source ∨ w = e.target
      · have hone := touches_le_one (w := w) hloop
        have hroom : s.perWalletKept w < maxNodeDegree := by
          rcases htouch with rfl | rfl
          · exact hfull.1 hw
          · exact hfull.2 hw
        omega
      · rw [touches_eq_zero.mpr (not_or.mp htouch), Nat.add_zero, h.counts w hw]
        exact h.bounded w hw

theorem capped_foldl (hsorted : edges.Pairwise fun a b => b.attr.baseAmount ≤ a.attr.baseAmount)
    (hloops : ∀ e ∈ edges, e.source ≠ e.target) :
    Capped maxNodeDegree overCap edges
      (edges.foldl (capEdge maxNodeDegree overCap) ⟨[], fun _ => 0⟩) := by
  induction edges using List.reverseRecOn with
  | nil => exact ⟨List.Sublist.refl _, fun _ _ => rfl, fun _ _ => Nat.zero_le _, nofun⟩
  | append_singleton done e ih =>
    obtain ⟨hdone, -, hlast⟩ := List.pairwise_append.mp hsorted
    rw [List.foldl_append, List.foldl_cons, List.foldl_nil]
    exact (ih hdone fun e' he' => hloops e' (List.mem_append_left _ he')).step
      (fun e' he' => hlast e' he' e (List.mem_singleton_self _))
      (hloops e (List.mem_append_right _ (List.mem_singleton_self _)))

theorem capHighDegree_capped (hloops : ∀ e ∈ edges, e.source ≠ e.target)
    (hover : ¬ edges.all fun e => ¬ decide (maxNodeDegree < degree edges e.source) ∧
      ¬ decide (maxNodeDegree < degree edges e.target)) :
    ∃ s, s.kept = capHighDegree maxNodeDegree edges ∧ Capped maxNodeDegree
      (fun w => decide (maxNodeDegree < degree edges w)) (byAmount edges) s := by
  have hperm : (byAmount edges).Perm edges := List.mergeSort_perm _ _
  have hsorted : (byAmount edges).Pairwise fun a b => b.attr.baseAmount ≤ a.attr.baseAmount :=
    (List.pairwise_mergeSort (fun a b c => by simpa using fun hab hbc => hbc.trans hab)
      (fun a b => by simpa using le_total _ _) edges).imp fun h => of_decide_eq_true h
  refine ⟨_, ?_, capped_foldl hsorted fun e he => hloops e (hperm.mem_iff.mp he)⟩
  unfold capHighDegree
  exact (if_neg hover).symm

theorem capHighDegree_subperm (hloops : ∀ e ∈ edges, e.source ≠ e.target) :
    (capHighDegree maxNodeDegree edges).Subperm edges := by
  by_cases hfree : edges.all fun e => ¬ decide (maxNodeDegree < degree edges e.source) ∧
      ¬ decide (maxNodeDegree < degree edges e.target)
  · unfold capHighDegree
    dsimp only
    rw [if_pos hfree]
  · obtain ⟨s, hkept, hcapped⟩ := capHighDegree_capped hloops hfree
    rw [← hkept]
    exact hcapped.sublist.subperm.trans (List.mergeSort_perm _ _).subperm

end

/-- The cap keeps edges of the slice such that no wallet has a higher degree, and drops only edges
of a wallet that is above it, for which it keeps that many others that are no smaller. -/
theorem capHighDegree_greedy {maxNodeDegree : ℕ} {edges : List Edge}
    (hloops : ∀ e ∈ edges, e.source ≠ e.target) :
    (capHighDegree maxNodeDegree edges).Subperm edges ∧
      (∀ w, degree (capHighDegree maxNodeDegree edges) w ≤ maxNodeDegree) ∧
      ∀ e ∈ edges, e ∉ capHighDegree maxNodeDegree edges → ∃ w, (w = e.source ∨ w = e.target) ∧
        maxNodeDegree < degree edges w ∧
          maxNodeDegree ≤ degree ((capHighDegree maxNodeDegree edges).filter fun e' =>
            decide (e.attr.baseAmount ≤ e'.attr.baseAmount)) w := by
  have hsubperm : (capHighDegree maxNodeDegree edges).Subperm edges := capHighDegree_subperm hloops
  by_cases hfree : edges.all fun e => ¬ decide (maxNodeDegree < degree edges e.source) ∧
      ¬ decide (maxNodeDegree < degree edges e.target)
  · have hall : capHighDegree maxNodeDegree edges = edges := by
      unfold capHighDegree
      exact if_pos hfree
    rw [hall]
    refine ⟨List.Subperm.refl _, fun w => ?_, fun e he hmissing => absurd he hmissing⟩
    by_contra hover
    rw [not_le] at hover
    obtain ⟨e, he, htouch⟩ := exists_of_degree_pos (Nat.zero_lt_of_lt hover)
    have hboth := of_decide_eq_true (List.all_eq_true.mp hfree e he)
    rcases htouch with rfl | rfl
    · exact hboth.1 (decide_eq_true hover)
    · exact hboth.2 (decide_eq_true hover)
  · obtain ⟨s, hkept, hcapped⟩ := capHighDegree_capped hloops hfree
    rw [← hkept] at hsubperm ⊢
    refine ⟨hsubperm, fun w => ?_, fun e he hmissing => ?_⟩
    · rcases le_or_gt (degree edges w) maxNodeDegree with hle | hover
      · exact (degree_le_of_subperm hsubperm).trans hle
      · exact hcapped.bounded w (decide_eq_true hover)
    · obtain ⟨w, hend, hover, hfull⟩ :=
        hcapped.dropped e ((List.mergeSort_perm _ _).mem_iff.mpr he) hmissing
      exact ⟨w, hend, of_decide_eq_true hover, hfull⟩

def star : List Edge :=
  [⟨some "hub", some "a", ⟨3, 1, 0⟩⟩, ⟨some "b", some "hub", ⟨5, 1, 0⟩⟩,
    ⟨some "hub", none, ⟨4, 1, 1⟩⟩]

theorem capHighDegree_greedy_star : degree (capHighDegree 2 star) (some "hub") ≤ 2 :=
  (capHighDegree_greedy (by decide)).2.1 _

section

variable {start stop : ℤ} {trades : List Trade} {edges : List Edge} {w : Wallet} {n k : ℕ}
  {tracked : Tracked}

def Trade.Between (start stop : ℤ) (t : Trade) : Prop :=
  start ≤ t.ledgerCloseTime ∧ t.ledgerCloseTime < stop ∧ some t.baseAccount ≠ t.counterAccount

instance (t : Trade) : Decidable (t.Between start stop) :=
  inferInstanceAs (Decidable (_ ∧ _ ∧ _))

theorem takeSlice_eq
    (h : trades.Pairwise fun a b => a.ledgerCloseTime ≤ b.ledgerCloseTime) :
    takeSlice start stop trades =
      ((trades.filter fun t => decide (t.Between start stop)).map Trade.edge,
        trades.filter fun t => decide (stop ≤ t.ledgerCloseTime)) := by
  induction trades with
  | nil => rfl
  | cons t rest ih =>
    obtain ⟨hfirst, hrest⟩ := List.pairwise_cons.mp h
    unfold takeSlice
    rw [ih hrest]
    split_ifs with hstop hskip
    · have hbetween : ¬ t.Between start stop := fun hbetween =>
        hskip.elim (not_lt.mpr hbetween.1) hbetween.2.2
      rw [List.filter_cons_of_neg (by simpa using hbetween),
        List.filter_cons_of_neg (by simpa using hstop)]
    · rw [not_or, not_lt] at hskip
      have hbetween : t.Between start stop := ⟨hskip.1, hstop, hskip.2⟩
      rw [List.filter_cons_of_pos (by simpa using hbetween),
        List.filter_cons_of_neg (by simpa using hstop), List.map_cons]
    · -- All the trades that follow are as late.
      rw [not_lt] at hstop
      have hlate : ∀ t' ∈ t :: rest, stop ≤ t'.ledgerCloseTime := by
        intro t' ht'
        rcases List.mem_cons.mp ht' with rfl | ht'
        · exact hstop
        · exact hstop.trans (hfirst t' ht')
      rw [List.filter_eq_self.mpr fun t' ht' => decide_eq_true (hlate t' ht'),
        List.filter_eq_nil_iff.mpr fun t' ht' hbetween =>
          absurd (of_decide_eq_true hbetween).2.1 (not_lt.mpr (hlate t' ht')), List.map_nil]

def ends (edges : List Edge) : List Wallet := edges.flatMap fun e => [e.source, e.target]

theorem mem_foldl_set {ws : List Wallet} : (w, n) ∈ (ws.foldl (fun (tracked : Tracked) w =>
    tracked.set w k) tracked).entries ↔ w ∈ ws ∧ n = k ∨ w ∉ ws ∧ (w, n) ∈ tracked.entries := by
  induction ws generalizing tracked with
  | nil => simp
  | cons w' ws ih =>
    rw [List.foldl_cons, ih, Dictionary.mem_set, Prod.mk.injEq, List.mem_cons]
    rcases eq_or_ne w w' with rfl | hw
    · by_cases hws : w ∈ ws <;> simp [hws]
    · by_cases hws : w ∈ ws <;> simp [hw, hws]

theorem mem_see : (w, n) ∈ (see k tracked edges).entries ↔
    w ∈ ends edges ∧ n = k ∨ w ∉ ends edges ∧ (w, n) ∈ tracked.entries := mem_foldl_set

theorem mem_evictExpired {retentionBuckets : ℕ+} :
    (w, n) ∈ (evictExpired retentionBuckets k tracked).entries ↔
      (w, n) ∈ tracked.entries ∧ k < n + retentionBuckets := by
  unfold evictExpired
  rw [Dictionary.mem_filterMap]
  constructor
  · rintro ⟨seen, hseen, hkept⟩
    split_ifs at hkept with hexpired
    cases hkept
    exact ⟨hseen, by omega⟩
  · rintro ⟨hseen, hrecent⟩
    exact ⟨n, hseen, if_neg (by omega)⟩

end

section

variable (c : Config) (trades : List Trade) (startTime endTime : ℤ)

/-- The beginning of a slice, and the end of the one before it. -/
def boundary (k : ℕ) : ℤ := min (startTime + k * c.bucket) endTime

def sliceEdges (k : ℕ) : List Edge :=
  ((sortTrades trades).filter fun t => decide (t.Between (boundary c startTime endTime k)
    (boundary c startTime endTime (k + 1)))).map Trade.edge

def Retained (bucketNo seen : ℕ) : Prop := ∀ r ∈ c.retentionBuckets, bucketNo < seen + r

structure IsSnapshot (nodeFeatureLookup : Wallet → Option WalletNodeFeatures) (k : ℕ)
    (snapshot : GraphSnapshot) : Prop where
  starts : snapshot.start = boundary c startTime endTime k
  stops : snapshot.stop = boundary c startTime endTime (k + 1)
  nodup : snapshot.wallets.Nodup
  wallets : ∀ w, w ∈ snapshot.wallets ↔
    ∃ seen ≤ k, Retained c k seen ∧ w ∈ ends (sliceEdges c trades startTime endTime seen)
  nodeFeatures : snapshot.nodeFeatures =
    snapshot.wallets.map fun w => featureRow (nodeFeatureLookup w)
  edgeIndex : snapshot.edgeIndex.map (fun e => (snapshot.wallets[e.1]?, snapshot.wallets[e.2]?)) =
    (capHighDegree c.maxNodeDegree (sliceEdges c trades startTime endTime k)).map fun e =>
      (some e.source, some e.target)
  edgeAttr : snapshot.edgeAttr =
    (capHighDegree c.maxNodeDegree (sliceEdges c trades startTime endTime k)).map Edge.attr

def lastWallets (snapshots : List GraphSnapshot) : List Wallet :=
  (snapshots.getLast?.map GraphSnapshot.wallets).getD []

/-- What the loop has built after some passes. -/
structure Built (nodeFeatureLookup : Wallet → Option WalletNodeFeatures) (k : ℕ) (s : State) :
    Prop where
  sliceStart : s.sliceStart = boundary c startTime endTime k
  bucketNo : s.bucketNo = k
  sorted : s.trades.Pairwise fun a b => a.ledgerCloseTime ≤ b.ledgerCloseTime
  left : s.trades.filter (fun t => decide (s.sliceStart ≤ t.ledgerCloseTime)) =
    (sortTrades trades).filter fun t => decide (s.sliceStart ≤ t.ledgerCloseTime)
  tracked : ∀ w seen, (w, seen) ∈ s.tracked.entries ↔ seen < k ∧ Retained c (k - 1) seen ∧
    w ∈ ends (sliceEdges c trades startTime endTime seen) ∧
      ∀ j, seen < j → j < k → w ∉ ends (sliceEdges c trades startTime endTime j)
  length : s.snapshots.length = k
  before : ∀ j < k, boundary c startTime endTime j < endTime
  snapshots : ∀ j snapshot, s.snapshots[j]? = some snapshot →
    IsSnapshot c trades startTime endTime nodeFeatureLookup j snapshot
  keys : s.tracked.keys = lastWallets s.snapshots

end

section

variable {c : Config} {trades : List Trade} {startTime endTime : ℤ} {k : ℕ} {s : State} {w : Wallet}
  {nodeFeatureLookup : Wallet → Option WalletNodeFeatures}

theorem boundary_succ (h : boundary c startTime endTime k < endTime) :
    min (boundary c startTime endTime k + c.bucket) endTime =
      boundary c startTime endTime (k + 1) := by
  unfold boundary at *
  have hk : startTime + k * c.bucket < endTime := (min_lt_iff.mp h).resolve_right (lt_irrefl _)
  rw [min_eq_left hk.le, add_assoc]
  congr 1
  push_cast
  ring

theorem boundary_le_succ (hbucket : 0 ≤ c.bucket) :
    boundary c startTime endTime k ≤ boundary c startTime endTime (k + 1) := by
  unfold boundary
  apply min_le_min_right
  push_cast
  linarith

theorem Built.edges_eq (h : Built c trades startTime endTime nodeFeatureLookup k s)
    (hstart : s.sliceStart < endTime) :
    (TemporalGraph.takeSlice s.sliceStart (min (s.sliceStart + c.bucket) endTime) s.trades).1 =
      sliceEdges c trades startTime endTime k := by
  rw [takeSlice_eq h.sorted, sliceEdges]
  dsimp only
  have hstop : min (s.sliceStart + c.bucket) endTime = boundary c startTime endTime (k + 1) := by
    rw [h.sliceStart] at hstart ⊢
    exact boundary_succ hstart
  have hfilter (l : List Trade) : l.filter (fun t => decide
      (t.Between s.sliceStart (min (s.sliceStart + c.bucket) endTime))) =
        (l.filter fun t => decide (s.sliceStart ≤ t.ledgerCloseTime)).filter fun t => decide
          (t.Between (boundary c startTime endTime k) (boundary c startTime endTime (k + 1))) := by
    rw [List.filter_filter, hstop, h.sliceStart]
    apply List.filter_congr
    intro t _
    rw [Bool.eq_iff_iff, Bool.and_eq_true, decide_eq_true_iff, decide_eq_true_iff]
    exact ⟨fun hbetween => ⟨hbetween, hbetween.1⟩, fun hbetween => hbetween.1⟩
  rw [hfilter, h.left, List.filter_filter]
  apply congrArg (List.map Trade.edge)
  apply List.filter_congr
  intro t _
  rw [Bool.eq_iff_iff, Bool.and_eq_true, decide_eq_true_iff, decide_eq_true_iff, h.sliceStart]
  exact ⟨fun hbetween => hbetween.1, fun hbetween => ⟨hbetween, hbetween.1⟩⟩

theorem Built.left_next (h : Built c trades startTime endTime nodeFeatureLookup k s) {stop : ℤ}
    (hstop : s.sliceStart ≤ stop) :
    s.trades.filter (fun t => decide (stop ≤ t.ledgerCloseTime)) =
      (sortTrades trades).filter fun t => decide (stop ≤ t.ledgerCloseTime) := by
  have hfilter (l : List Trade) : l.filter (fun t => decide (stop ≤ t.ledgerCloseTime)) =
      (l.filter fun t => decide (s.sliceStart ≤ t.ledgerCloseTime)).filter fun t =>
        decide (stop ≤ t.ledgerCloseTime) := by
    rw [List.filter_filter]
    apply List.filter_congr
    intro t _
    rw [Bool.eq_iff_iff, Bool.and_eq_true, decide_eq_true_iff, decide_eq_true_iff]
    exact ⟨fun hlate => ⟨hlate, hstop.trans hlate⟩, fun hlate => hlate.1⟩
  rw [hfilter, h.left, ← hfilter]

theorem Retained.mono {bucketNo bucketNo' seen : ℕ} (h : Retained c bucketNo seen)
    (hle : bucketNo' ≤ bucketNo) : Retained c bucketNo' seen := fun r hr =>
  hle.trans_lt (h r hr)

theorem Retained.self (bucketNo : ℕ) : Retained c bucketNo bucketNo := fun r _ =>
  Nat.lt_add_of_pos_right r.pos

theorem mem_track {tracked : Tracked} {edges : List Edge} {seen : ℕ} :
    (w, seen) ∈ (track c k tracked edges).entries ↔ Retained c k seen ∧
      (w ∈ ends edges ∧ seen = k ∨ w ∉ ends edges ∧ (w, seen) ∈ tracked.entries) := by
  unfold track Retained
  cases c.retentionBuckets with
  | none => simp [mem_see]
  | some r =>
    dsimp only
    rw [mem_evictExpired, mem_see]
    simp only [Option.mem_def, Option.some.injEq, forall_eq']
    exact and_comm

theorem Built.mem_track (h : Built c trades startTime endTime nodeFeatureLookup k s)
    {seen : ℕ} :
    (w, seen) ∈ (track c k s.tracked
      (sliceEdges c trades startTime endTime k)).entries ↔ seen < k + 1 ∧ Retained c k seen ∧
        w ∈ ends (sliceEdges c trades startTime endTime seen) ∧
          ∀ j, seen < j → j < k + 1 → w ∉ ends (sliceEdges c trades startTime endTime j) := by
  rw [TemporalGraph.mem_track, h.tracked]
  constructor
  · rintro ⟨hretained, ⟨hends, rfl⟩ | ⟨hends, hseen, -, hends', hlast⟩⟩
    · exact ⟨Nat.lt_succ_self _, hretained, hends, fun j hj hj' => by omega⟩
    · refine ⟨Nat.lt_succ_of_lt hseen, hretained, hends', fun j hj hj' => ?_⟩
      rcases Nat.lt_succ_iff_lt_or_eq.mp hj' with hj' | rfl
      · exact hlast j hj hj'
      · exact hends
  · rintro ⟨hseen, hretained, hends, hlast⟩
    refine ⟨hretained, ?_⟩
    rcases Nat.lt_succ_iff_lt_or_eq.mp hseen with hseen | rfl
    · exact .inr ⟨hlast k hseen (Nat.lt_succ_self _), hseen, hretained.mono (Nat.sub_le k 1), hends,
        fun j hj hj' => hlast j hj (Nat.lt_succ_of_lt hj')⟩
    · exact .inl ⟨hends, rfl⟩

theorem Built.mem_keys (h : Built c trades startTime endTime nodeFeatureLookup k s) :
    w ∈ (track c k s.tracked (sliceEdges c trades startTime endTime k)).keys ↔
      ∃ seen ≤ k, Retained c k seen ∧ w ∈ ends (sliceEdges c trades startTime endTime seen) := by
  constructor
  · intro hw
    obtain ⟨⟨w', seen⟩, hmem, rfl⟩ := List.mem_map.mp hw
    obtain ⟨hseen, hretained, hends, -⟩ := h.mem_track.mp hmem
    exact ⟨seen, Nat.lt_succ_iff.mp hseen, hretained, hends⟩
  · rintro ⟨seen, hseen, hretained, hends⟩
    -- The last bucket of the wallet is not before this one.
    classical
    let last := Nat.findGreatest
      (fun j => w ∈ ends (sliceEdges c trades startTime endTime j)) k
    have hlater : seen ≤ last := Nat.le_findGreatest hseen hends
    have hlast : w ∈ ends (sliceEdges c trades startTime endTime last) :=
      Nat.findGreatest_spec (P := fun j => w ∈ ends (sliceEdges c trades startTime endTime j))
        hseen hends
    have hmem : (w, last) ∈ (track c k s.tracked
        (sliceEdges c trades startTime endTime k)).entries := by
      refine h.mem_track.mpr ⟨Nat.lt_succ_of_le (Nat.findGreatest_le k), fun r hr => ?_, hlast,
        fun j hj hj' => Nat.findGreatest_is_greatest hj (Nat.lt_succ_iff.mp hj')⟩
      exact (hretained r hr).trans_le (Nat.add_le_add_right hlater _)
    exact List.mem_map_of_mem hmem

theorem sliceEdges_loops {e : Edge} (he : e ∈ sliceEdges c trades startTime endTime k) :
    e.source ≠ e.target := by
  obtain ⟨t, ht, rfl⟩ := List.mem_map.mp he
  exact (of_decide_eq_true (List.mem_filter.mp ht).2).2.2

theorem decode_edges {wallets : List Wallet} {edges : List Edge}
    (h : ∀ e ∈ edges, e.source ∈ wallets ∧ e.target ∈ wallets) :
    (edges.map fun e => (wallets.idxOf e.source, wallets.idxOf e.target)).map
        (fun e => (wallets[e.1]?, wallets[e.2]?)) =
      edges.map fun e => (some e.source, some e.target) := by
  rw [List.map_map]
  apply List.map_congr_left
  intro e he
  rw [Function.comp_apply, List.getElem?_idxOf (h e he).1, List.getElem?_idxOf (h e he).2]

theorem pairwise_sortTrades :
    (sortTrades trades).Pairwise fun a b => a.ledgerCloseTime ≤ b.ledgerCloseTime :=
  (List.pairwise_mergeSort (fun a b c => by simpa using le_trans)
    (fun a b => by simpa using le_total _ _) trades).imp fun h => of_decide_eq_true h

theorem Built.pass (h : Built c trades startTime endTime nodeFeatureLookup k s)
    (hbucket : 0 ≤ c.bucket) (hstart : s.sliceStart < endTime) :
    Built c trades startTime endTime nodeFeatureLookup (k + 1)
      (TemporalGraph.pass c nodeFeatureLookup endTime s) := by
  have hedges := h.edges_eq hstart
  have hstop : min (s.sliceStart + c.bucket) endTime = boundary c startTime endTime (k + 1) := by
    rw [h.sliceStart] at hstart ⊢
    exact boundary_succ hstart
  have hlater : s.sliceStart ≤ boundary c startTime endTime (k + 1) := by
    rw [h.sliceStart]
    exact boundary_le_succ hbucket
  have hleft : (TemporalGraph.takeSlice s.sliceStart
      (min (s.sliceStart + c.bucket) endTime) s.trades).2 =
        (sortTrades trades).filter fun t =>
          decide (boundary c startTime endTime (k + 1) ≤ t.ledgerCloseTime) := by
    rw [takeSlice_eq h.sorted, hstop]
    exact h.left_next hlater
  have hkeys : ∀ e ∈ sliceEdges c trades startTime endTime k,
      e.source ∈ (track c k s.tracked (sliceEdges c trades startTime endTime k)).keys ∧
        e.target ∈ (track c k s.tracked (sliceEdges c trades startTime endTime k)).keys := by
    intro e he
    constructor
    · exact h.mem_keys.mpr ⟨k, le_rfl, .self k, List.mem_flatMap.mpr ⟨e, he, List.mem_cons_self⟩⟩
    · exact h.mem_keys.mpr ⟨k, le_rfl, .self k, List.mem_flatMap.mpr
        ⟨e, he, List.mem_cons_of_mem _ List.mem_cons_self⟩⟩
  have hcap : (capHighDegree c.maxNodeDegree (sliceEdges c trades startTime endTime k)).Subperm
      (sliceEdges c trades startTime endTime k) := capHighDegree_subperm fun _ => sliceEdges_loops
  unfold TemporalGraph.pass
  dsimp only
  rw [hedges, hleft, hstop, h.bucketNo]
  refine ⟨rfl, rfl, ?_, ?_, fun w seen => ?_, ?_, fun j hj => ?_, fun j snapshot hj => ?_, ?_⟩
  · exact pairwise_sortTrades.filter _
  · rw [List.filter_filter]
    simp
  · exact h.mem_track
  · rw [List.length_append, List.length_singleton, h.length]
  · rcases Nat.lt_succ_iff_lt_or_eq.mp hj with hj | rfl
    · exact h.before j hj
    · exact h.sliceStart ▸ hstart
  · rw [List.getElem?_append] at hj
    split_ifs at hj with hold
    · exact h.snapshots j snapshot hj
    · have hlast : j = k := by
        have := (List.getElem?_eq_some_iff.mp hj).1
        rw [List.length_singleton, h.length] at this
        rw [h.length] at hold
        omega
      subst hlast
      rw [h.length, Nat.sub_self, List.getElem?_cons_zero] at hj
      cases hj
      refine ⟨h.sliceStart, rfl, Dictionary.nodup _, fun w => h.mem_keys, rfl, ?_, rfl⟩
      exact decode_edges fun e he => hkeys e (hcap.subset he)
  · rw [lastWallets, List.getLast?_concat]
    rfl

theorem Built.slices {fuel : ℕ} (h : Built c trades startTime endTime nodeFeatureLookup k s)
    (hbucket : 0 < c.bucket) (hfuel : endTime ≤ s.sliceStart + fuel * c.bucket) :
    ∃ n s', TemporalGraph.slices c nodeFeatureLookup endTime fuel s = some s' ∧
      Built c trades startTime endTime nodeFeatureLookup n s' ∧ endTime ≤ s'.sliceStart := by
  induction fuel generalizing k s with
  | zero =>
    have hdone : endTime ≤ s.sliceStart := by simpa using hfuel
    exact ⟨k, s, if_neg (not_lt.mpr hdone), h, hdone⟩
  | succ fuel ih =>
    unfold TemporalGraph.slices
    split_ifs with hstart
    · refine ih (h.pass hbucket.le hstart) ?_
      -- A pass ends a bucket later, or at the end.
      change endTime ≤ min (s.sliceStart + c.bucket) endTime + fuel * c.bucket
      have hrest : 0 ≤ (fuel : ℤ) * c.bucket := by positivity
      rcases min_cases (s.sliceStart + c.bucket) endTime with ⟨hmin, -⟩ | ⟨hmin, -⟩
      · rw [hmin]
        push_cast at hfuel
        linarith
      · rw [hmin]
        linarith
    · exact ⟨k, s, rfl, h, not_lt.mp hstart⟩

theorem built_start {stats : Stats} (h : startTime ≤ endTime) :
    Built c trades startTime endTime nodeFeatureLookup 0
      ⟨startTime, sortTrades trades, 0, .empty, stats, []⟩ where
  sliceStart := by
    unfold boundary
    rw [Nat.cast_zero, zero_mul, add_zero, min_eq_left h]
  bucketNo := rfl
  sorted := pairwise_sortTrades
  left := rfl
  tracked w seen := by simp [Dictionary.empty]
  length := rfl
  before := nofun
  snapshots := nofun
  keys := rfl

theorem boundary_mono (hbucket : 0 ≤ c.bucket) {m n : ℕ} (h : m ≤ n) :
    boundary c startTime endTime m ≤ boundary c startTime endTime n := by
  have hmono : Monotone (boundary c startTime endTime) :=
    monotone_nat_of_le_succ fun _ => boundary_le_succ hbucket
  exact hmono h

end

/-- Over a window of days every bucket has its snapshot: the edges of its trades under the cap, at
the indices of the wallets of some trade within the retention. The call fails just where a pool is
one of the first three of them in the end. -/
theorem buildSnapshots_exact {fuel : ℕ} {c : Config} {trades : List Trade} {lookbackDays : ℤ}
    {nodeFeatureLookup : Wallet → Option WalletNodeFeatures} {endTime : ℤ} {stats : Stats}
    (hdays : 0 ≤ lookbackDays) (hbucket : 0 < c.bucketHours)
    (hfuel : lookbackDays * 86400000000 ≤ fuel * c.bucket) :
    let startTime := endTime - lookbackDays * 86400000000
    ∃ (snapshots : List GraphSnapshot) (stats' : Stats),
      (∀ k, k < snapshots.length ↔ boundary c startTime endTime k < endTime) ∧
      (∀ k snapshot, snapshots[k]? = some snapshot →
        IsSnapshot c trades startTime endTime nodeFeatureLookup k snapshot) ∧
      buildSnapshots fuel c trades lookbackDays nodeFeatureLookup endTime stats =
        some (if none ∈ (lastWallets snapshots).take 3 then .error .attributeError
          else .ok (snapshots, stats')) := by
  intro startTime
  have hpos : 0 < c.bucket := by
    unfold Config.bucket
    omega
  have hstart : Built c trades startTime endTime nodeFeatureLookup 0
      ⟨startTime, sortTrades trades, 0, .empty, stats, []⟩ := built_start (by omega)
  have hend : endTime ≤ startTime + fuel * c.bucket := by omega
  obtain ⟨n, s, hrun, hbuilt, hdone⟩ := hstart.slices hpos hend
  refine ⟨s.snapshots, s.stats, fun k => ⟨fun hk => ?_, fun hk => ?_⟩, hbuilt.snapshots, ?_⟩
  · exact hbuilt.before k (hbuilt.length ▸ hk)
  · rw [hbuilt.length]
    by_contra hle
    rw [not_lt] at hle
    rw [hbuilt.sliceStart] at hdone
    exact absurd hk (not_lt.mpr (hdone.trans (boundary_mono hpos.le hle)))
  · rw [buildSnapshots, hrun, ← hbuilt.keys]
    rfl

def fourHours : Config := ⟨4, 10000, some ⟨2, Nat.two_pos⟩⟩

theorem buildSnapshots_exact_day : ∃ snapshots stats', snapshots.length = 6 ∧
    buildSnapshots 6 fourHours [⟨-1, "a", some "b", 5, 2, .orderbook⟩] 1 (fun _ => none) 0
      ⟨0, 0, 0⟩ = some (if none ∈ (lastWallets snapshots).take 3 then .error .attributeError
        else .ok (snapshots, stats')) := by
  obtain ⟨snapshots, stats', hlength, -, hbuild⟩ := @buildSnapshots_exact 6 fourHours
    [⟨-1, "a", some "b", 5, 2, .orderbook⟩] 1 (fun _ => none) 0 ⟨0, 0, 0⟩ (by decide) (by decide)
    (by decide)
  have hsix : snapshots.length = 6 :=
    le_antisymm (not_lt.mp fun h => absurd ((hlength 6).mp h) (by decide))
      ((hlength 5).mpr (by decide))
  exact ⟨snapshots, stats', hsix, hbuild⟩

end TemporalGraph
