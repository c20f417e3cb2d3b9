import LedgerLens.FallibleRuns
import Mathlib.Data.Finset.Insert
import Mathlib.Data.List.AList
import Mathlib.Data.List.Sort

/-!
# Finality tracking of ingested blocks

`ingestion/evm_finality.py`: the tracker of ingested block hashes, its reorg check, and what the
checks of a run return for one recorded transaction. The case folding of hashes and the
canonical chain, whose queries may raise, are parameters.
-/
namespace EvmFinality

open FallibleRuns

structure TrackedBlock where
  blockHash : String
  txHashes : Finset String := ∅
  deriving DecidableEq

structure FinalityTracker where
  confirmationDepth : ℤ
  reorgCheckBlocks : ℤ
  blocks : AList fun _ : ℤ => TrackedBlock
  depth_nonneg : 0 ≤ confirmationDepth

inductive TrackerError where
  | confirmationDepthNegative (confirmationDepth : ℤ)
  deriving DecidableEq, Repr

namespace FinalityTracker

def init (confirmationDepth reorgCheckBlocks : ℤ) : Except TrackerError FinalityTracker :=
  if h : confirmationDepth < 0 then
    throw (.confirmationDepthNegative confirmationDepth)
  else
    pure
      { confirmationDepth := confirmationDepth
        reorgCheckBlocks := reorgCheckBlocks
        blocks := ∅
        depth_nonneg := not_lt.mp h }

/-- Highest block number treated as final for `latestBlock`. -/
def finalizedHead (t : FinalityTracker) (latestBlock : ℤ) : ℤ :=
  max 0 (latestBlock - t.confirmationDepth)

def isFinal (t : FinalityTracker) (blockNumber latestBlock : ℤ) : Bool :=
  blockNumber ≤ t.finalizedHead latestBlock

def record (t : FinalityTracker) (blockNumber : ℤ) (blockHash txHash : String) :
    FinalityTracker :=
  if blockHash = "" then t
  else
    let tracked : TrackedBlock :=
      match t.blocks.lookup blockNumber with
      | none => { blockHash := blockHash }
      | some tracked =>
        if tracked.blockHash ≠ blockHash then { blockHash := blockHash } else tracked
    { t with
      blocks := t.blocks.insert blockNumber
        { tracked with txHashes := insert txHash tracked.txHashes } }

def oldest (t : FinalityTracker) (latestBlock : ℤ) : ℤ :=
  t.finalizedHead latestBlock - t.reorgCheckBlocks

def prune (t : FinalityTracker) (latestBlock : ℤ) : FinalityTracker :=
  { t with
    blocks := (t.blocks.keys.filter (· < t.oldest latestBlock)).foldl
      (fun blocks number => blocks.erase number) t.blocks }

end FinalityTracker

abbrev Orphaned := List (ℤ × Finset String)

section Chain

variable {ε : Type} (lower : String → String)

/-- A block that the chain does not know is not orphaned. -/
def differs (canonical : Option String) (blockHash : String) : Bool :=
  canonical.any fun canonical => lower canonical != lower blockHash

def orphans (getCanonicalHash : ℤ → Except ε (Option String)) :
    List (Sigma fun _ : ℤ => TrackedBlock) → Except ε Orphaned
  | [] => pure []
  | ⟨number, tracked⟩ :: rest => do
    let canonical ← getCanonicalHash number
    let orphaned ← orphans getCanonicalHash rest
    if differs lower canonical tracked.blockHash then
      pure ((number, tracked.txHashes) :: orphaned)
    else
      pure orphaned

/-- A query that raises ends the check after the pruning. -/
def FinalityTracker.checkReorgs (t : FinalityTracker) (latestBlock : ℤ)
    (getCanonicalHash : ℤ → Except ε (Option String)) : FinalityTracker × Except ε Orphaned :=
  let t := t.prune latestBlock
  let items := t.blocks.entries.insertionSort fun a b => a.1 ≤ b.1
  match orphans lower getCanonicalHash items with
  | .error e => (t, .error e)
  | .ok orphaned =>
    ({ t with
        blocks := (orphaned.map Prod.fst).foldl (fun blocks number => blocks.erase number)
          t.blocks },
      .ok orphaned)

theorem lookup_foldl_erase (numbers : List ℤ) (blocks : AList fun _ : ℤ => TrackedBlock)
    (number : ℤ) :
    (numbers.foldl (fun blocks n => blocks.erase n) blocks).lookup number =
      if number ∈ numbers then none else blocks.lookup number := by
  induction numbers generalizing blocks with
  | nil => simp
  | cons n numbers ih =>
    rw [List.foldl_cons, ih]
    by_cases hn : number = n
    · subst hn
      simp
    · simp [hn, AList.lookup_erase_ne hn]

namespace FinalityTracker

def InWindow (t : FinalityTracker) (latestBlock number : ℤ) : Prop :=
  t.oldest latestBlock ≤ number

instance (t : FinalityTracker) (latestBlock number : ℤ) :
    Decidable (t.InWindow latestBlock number) :=
  inferInstanceAs (Decidable (_ ≤ _))

theorem lookup_prune (t : FinalityTracker) (latestBlock number : ℤ) :
    (t.prune latestBlock).blocks.lookup number =
      if t.InWindow latestBlock number then t.blocks.lookup number else none := by
  rw [prune, lookup_foldl_erase]
  by_cases hwindow : t.InWindow latestBlock number
  · have hkept : ¬ number < t.oldest latestBlock := not_lt.mpr hwindow
    simp [hwindow, hkept]
  · have hold : number < t.oldest latestBlock := not_le.mp hwindow
    by_cases hkey : number ∈ t.blocks.keys
    · simp [hwindow, hold, hkey]
    · simp [hwindow, hkey, AList.lookup_eq_none.mpr hkey]

end FinalityTracker

def Replaced (getCanonicalHash : ℤ → Except ε (Option String)) (number : ℤ)
    (blockHash : String) : Prop :=
  ∃ canonical, getCanonicalHash number = .ok canonical ∧ differs lower canonical blockHash

theorem mem_orphans {getCanonicalHash : ℤ → Except ε (Option String)}
    {items : List (Sigma fun _ : ℤ => TrackedBlock)} {orphaned : Orphaned}
    (h : orphans lower getCanonicalHash items = .ok orphaned) (number : ℤ)
    (txHashes : Finset String) :
    (number, txHashes) ∈ orphaned ↔ ∃ tracked, ⟨number, tracked⟩ ∈ items ∧
      tracked.txHashes = txHashes ∧ Replaced lower getCanonicalHash number tracked.blockHash := by
  induction items generalizing orphaned with
  | nil =>
    obtain rfl := pure_eq_ok.mp h
    simp
  | cons item items ih =>
    obtain ⟨n, block⟩ := item
    obtain ⟨canonical, hcanonical, hrest⟩ := bind_eq_ok.mp h
    obtain ⟨later, hlater, hout⟩ := bind_eq_ok.mp hrest
    have hblock : Replaced lower getCanonicalHash n block.blockHash ↔
        differs lower canonical block.blockHash := by
      constructor
      · rintro ⟨c, hc, hdiffers⟩
        rw [hcanonical] at hc
        cases hc
        exact hdiffers
      · intro hdiffers
        exact ⟨canonical, hcanonical, hdiffers⟩
    have hlaterItems := ih hlater
    by_cases hdiffers : differs lower canonical block.blockHash
    · rw [if_pos hdiffers, pure_eq_ok] at hout
      subst hout
      rw [List.mem_cons, hlaterItems]
      constructor
      · rintro (heq | ⟨tracked, hmem, htx, hreplaced⟩)
        · cases heq
          exact ⟨block, List.mem_cons_self, rfl, hblock.mpr hdiffers⟩
        · exact ⟨tracked, List.mem_cons_of_mem _ hmem, htx, hreplaced⟩
      · rintro ⟨tracked, hmem, rfl, hreplaced⟩
        rcases List.mem_cons.mp hmem with heq | hmem
        · cases heq
          exact .inl rfl
        · exact .inr ⟨tracked, hmem, rfl, hreplaced⟩
    · rw [if_neg hdiffers, pure_eq_ok] at hout
      subst hout
      rw [hlaterItems]
      constructor
      · rintro ⟨tracked, hmem, htx, hreplaced⟩
        exact ⟨tracked, List.mem_cons_of_mem _ hmem, htx, hreplaced⟩
      · rintro ⟨tracked, hmem, htx, hreplaced⟩
        rcases List.mem_cons.mp hmem with heq | hmem
        · cases heq
          exact absurd (hblock.mp hreplaced) hdiffers
        · exact ⟨tracked, hmem, htx, hreplaced⟩

theorem orphans_succeeds {getCanonicalHash : ℤ → Except ε (Option String)}
    (h : ∀ number, ∃ canonical, getCanonicalHash number = .ok canonical)
    (items : List (Sigma fun _ : ℤ => TrackedBlock)) :
    ∃ orphaned, orphans lower getCanonicalHash items = .ok orphaned := by
  induction items with
  | nil => exact ⟨[], rfl⟩
  | cons item items ih =>
    obtain ⟨canonical, hcanonical⟩ := h item.1
    obtain ⟨later, hlater⟩ := ih
    simp only [orphans, bind_eq_ok]
    by_cases hdiffers : differs lower canonical item.2.blockHash
    · exact ⟨_, canonical, hcanonical, later, hlater, if_pos hdiffers⟩
    · exact ⟨_, canonical, hcanonical, later, hlater, if_neg hdiffers⟩

namespace FinalityTracker

variable {lower}

theorem checkReorgs_ends {getCanonicalHash : ℤ → Except ε (Option String)}
    (h : ∀ number, ∃ canonical, getCanonicalHash number = .ok canonical) (t : FinalityTracker)
    (latestBlock : ℤ) :
    ∃ orphaned, (t.checkReorgs lower latestBlock getCanonicalHash).2 = .ok orphaned := by
  obtain ⟨orphaned, horphaned⟩ := orphans_succeeds lower h
    ((t.prune latestBlock).blocks.entries.insertionSort fun a b => a.1 ≤ b.1)
  rw [checkReorgs]
  simp only [horphaned]
  exact ⟨orphaned, rfl⟩

theorem mem_checkReorgs {t : FinalityTracker} {latestBlock : ℤ}
    {getCanonicalHash : ℤ → Except ε (Option String)} {orphaned : Orphaned}
    (h : (t.checkReorgs lower latestBlock getCanonicalHash).2 = .ok orphaned) (number : ℤ)
    (txHashes : Finset String) :
    (number, txHashes) ∈ orphaned ↔ ∃ tracked, t.blocks.lookup number = some tracked ∧
      tracked.txHashes = txHashes ∧ t.InWindow latestBlock number ∧
        Replaced lower getCanonicalHash number tracked.blockHash := by
  rw [checkReorgs] at h
  cases horphans : orphans lower getCanonicalHash
      ((t.prune latestBlock).blocks.entries.insertionSort fun a b => a.1 ≤ b.1) with
  | error e => simp [horphans] at h
  | ok found =>
    obtain rfl : found = orphaned := by simpa [horphans] using h
    rw [mem_orphans lower horphans]
    apply exists_congr
    intro tracked
    rw [List.mem_insertionSort, ← AList.mem_lookup_iff, Option.mem_def, lookup_prune]
    by_cases hwindow : t.InWindow latestBlock number
    · simp [hwindow]
    · simp [hwindow]

/-- A check forgets what is out of its window and what it returns. -/
theorem lookup_checkReorgs {t : FinalityTracker} {latestBlock : ℤ}
    {getCanonicalHash : ℤ → Except ε (Option String)} {number : ℤ} {tracked : TrackedBlock} :
    (t.checkReorgs lower latestBlock getCanonicalHash).1.blocks.lookup number = some tracked ↔
      t.blocks.lookup number = some tracked ∧ t.InWindow latestBlock number ∧
        ∀ orphaned, (t.checkReorgs lower latestBlock getCanonicalHash).2 = .ok orphaned →
          ¬ Replaced lower getCanonicalHash number tracked.blockHash := by
  have hpruned : (t.prune latestBlock).blocks.lookup number = some tracked ↔
      t.blocks.lookup number = some tracked ∧ t.InWindow latestBlock number := by
    rw [lookup_prune]
    by_cases hwindow : t.InWindow latestBlock number
    · simp [hwindow]
    · simp [hwindow]
  cases hcheck : (t.checkReorgs lower latestBlock getCanonicalHash).2 with
  | error e =>
    have hstate : (t.checkReorgs lower latestBlock getCanonicalHash).1 = t.prune latestBlock := by
      rw [checkReorgs] at hcheck ⊢
      cases horphans : orphans lower getCanonicalHash
          ((t.prune latestBlock).blocks.entries.insertionSort fun a b => a.1 ≤ b.1) with
      | error e => rfl
      | ok found => simp [horphans] at hcheck
    rw [hstate, hpruned]
    simp
  | ok orphaned =>
    have hmem := mem_checkReorgs hcheck number
    have hstate : (t.checkReorgs lower latestBlock getCanonicalHash).1.blocks.lookup number =
        if number ∈ orphaned.map Prod.fst then none
        else (t.prune latestBlock).blocks.lookup number := by
      rw [checkReorgs] at hcheck ⊢
      cases horphans : orphans lower getCanonicalHash
          ((t.prune latestBlock).blocks.entries.insertionSort fun a b => a.1 ≤ b.1) with
      | error e => simp [horphans] at hcheck
      | ok found =>
        obtain rfl : found = orphaned := by simpa [horphans] using hcheck
        exact lookup_foldl_erase _ _ _
    rw [hstate]
    by_cases hreturned : number ∈ orphaned.map Prod.fst
    · obtain ⟨⟨n, txHashes⟩, hin, rfl⟩ := List.mem_map.mp hreturned
      obtain ⟨block, hblock, -, -, hreplaced⟩ := (hmem txHashes).mp hin
      rw [if_pos hreturned]
      simp only [reduceCtorEq, false_iff, not_and]
      intro htracked _ hkept
      obtain rfl : block = tracked := Option.some.inj (hblock.symm.trans htracked)
      exact hkept orphaned rfl hreplaced
    · rw [if_neg hreturned, hpruned]
      constructor
      · rintro ⟨htracked, hwindow⟩
        refine ⟨htracked, hwindow, ?_⟩
        rintro _ ⟨⟩ hreplaced
        apply hreturned
        exact List.mem_map.mpr
          ⟨_, (hmem tracked.txHashes).mpr ⟨tracked, htracked, rfl, hwindow, hreplaced⟩, rfl⟩
      · rintro ⟨htracked, hwindow, -⟩
        exact ⟨htracked, hwindow⟩

def Holding (t : FinalityTracker) (number : ℤ) (blockHash txHash : String) : Prop :=
  ∃ tracked, t.blocks.lookup number = some tracked ∧ tracked.blockHash = blockHash ∧
    txHash ∈ tracked.txHashes

theorem record_empty (t : FinalityTracker) (number : ℤ) (txHash : String) :
    t.record number "" txHash = t :=
  if_pos rfl

theorem lookup_record_ne (t : FinalityTracker) {number n : ℤ} (hn : n ≠ number)
    (blockHash txHash : String) :
    (t.record number blockHash txHash).blocks.lookup n = t.blocks.lookup n := by
  rw [record]
  by_cases hempty : blockHash = ""
  · rw [if_pos hempty]
  · rw [if_neg hempty]
    exact AList.lookup_insert_ne hn

/-- Recording drops the transactions of a block with another hash, and no others. -/
theorem holding_record_self (t : FinalityTracker) (number : ℤ) {blockHash : String}
    (hhash : blockHash ≠ "") (txHash hash tx : String) :
    (t.record number blockHash txHash).Holding number hash tx ↔
      hash = blockHash ∧ (tx = txHash ∨ t.Holding number hash tx) := by
  rw [record, if_neg hhash]
  simp only [Holding, AList.lookup_insert, Option.some.injEq, exists_eq_left',
    Finset.mem_insert]
  cases hlookup : t.blocks.lookup number with
  | none => simp [eq_comm]
  | some tracked =>
    by_cases hsame : tracked.blockHash ≠ blockHash
    · simp only [hsame, if_true, Option.some.injEq, exists_eq_left', ne_eq, not_false_eq_true,
        Finset.notMem_empty, or_false]
      constructor
      · rintro ⟨rfl, rfl⟩
        exact ⟨rfl, .inl rfl⟩
      · rintro ⟨rfl, rfl | ⟨hold, -⟩⟩
        · exact ⟨rfl, rfl⟩
        · exact absurd hold hsame
    · obtain rfl := not_not.mp hsame
      simp only [ne_eq, not_true_eq_false, if_false, Option.some.injEq, exists_eq_left']
      constructor
      · rintro ⟨rfl, htx | htx⟩
        · exact ⟨rfl, .inl htx⟩
        · exact ⟨rfl, .inr ⟨rfl, htx⟩⟩
      · rintro ⟨rfl, htx | ⟨-, htx⟩⟩
        · exact ⟨rfl, .inl htx⟩
        · exact ⟨rfl, .inr htx⟩

theorem holding_record_ne (t : FinalityTracker) {number n : ℤ} (hn : n ≠ number)
    (blockHash txHash hash tx : String) :
    (t.record number blockHash txHash).Holding n hash tx ↔ t.Holding n hash tx := by
  rw [Holding, lookup_record_ne t hn]
  rfl

theorem holding_checkReorgs {t : FinalityTracker} {latestBlock : ℤ}
    {getCanonicalHash : ℤ → Except ε (Option String)} {number : ℤ} {hash tx : String} :
    (t.checkReorgs lower latestBlock getCanonicalHash).1.Holding number hash tx ↔
      t.Holding number hash tx ∧ t.InWindow latestBlock number ∧
        ∀ orphaned, (t.checkReorgs lower latestBlock getCanonicalHash).2 = .ok orphaned →
          ¬ Replaced lower getCanonicalHash number hash := by
  constructor
  · rintro ⟨tracked, hlookup, rfl, htx⟩
    obtain ⟨hold, hwindow, hkept⟩ := lookup_checkReorgs.mp hlookup
    exact ⟨⟨tracked, hold, rfl, htx⟩, hwindow, hkept⟩
  · rintro ⟨⟨tracked, hold, rfl, htx⟩, hwindow, hkept⟩
    exact ⟨tracked, lookup_checkReorgs.mpr ⟨hold, hwindow, hkept⟩, rfl, htx⟩

end FinalityTracker

inductive Call (ε : Type) where
  | record (blockNumber : ℤ) (blockHash txHash : String)
  | checkReorgs (latestBlock : ℤ) (getCanonicalHash : ℤ → Except ε (Option String))

namespace FinalityTracker

def call (t : FinalityTracker) : Call ε → FinalityTracker
  | .record blockNumber blockHash txHash => t.record blockNumber blockHash txHash
  | .checkReorgs latestBlock getCanonicalHash =>
    (t.checkReorgs lower latestBlock getCanonicalHash).1

def calls (t : FinalityTracker) (cs : List (Call ε)) : FinalityTracker :=
  cs.foldl (call lower) t

/-- The transaction is in what a check returns for the height, whose tracked block has the
hash. -/
def returns (t : FinalityTracker) (number : ℤ) (hash tx : String) : Call ε → Bool
  | .record .. => false
  | .checkReorgs latestBlock getCanonicalHash =>
    match (t.checkReorgs lower latestBlock getCanonicalHash).2 with
    | .error _ => false
    | .ok orphaned =>
      (orphaned.any fun (n, txHashes) => n = number ∧ tx ∈ txHashes) &&
        (t.blocks.lookup number).any fun tracked => tracked.blockHash = hash

def timesReturned (number : ℤ) (hash tx : String) :
    FinalityTracker → List (Call ε) → ℕ
  | _, [] => 0
  | t, c :: cs =>
    (t.returns lower number hash tx c).toNat + timesReturned number hash tx (t.call lower c) cs

variable {lower}

theorem returns_checkReorgs {t : FinalityTracker} {latestBlock : ℤ}
    {getCanonicalHash : ℤ → Except ε (Option String)} {number : ℤ} {hash tx : String} :
    t.returns lower number hash tx (.checkReorgs latestBlock getCanonicalHash) ↔
      t.Holding number hash tx ∧ t.InWindow latestBlock number ∧
        Replaced lower getCanonicalHash number hash ∧
        ∃ orphaned, (t.checkReorgs lower latestBlock getCanonicalHash).2 = .ok orphaned := by
  rw [returns]
  cases hcheck : (t.checkReorgs lower latestBlock getCanonicalHash).2 with
  | error e => simp
  | ok orphaned =>
    simp only [Bool.and_eq_true, List.any_eq_true, Option.any_eq_true, decide_eq_true_eq,
      Except.ok.injEq, exists_eq', and_true]
    constructor
    · rintro ⟨⟨⟨n, txHashes⟩, hmem, rfl, htx⟩, tracked, hlookup, rfl⟩
      obtain ⟨block, hblock, rfl, hwindow, hreplaced⟩ := (mem_checkReorgs hcheck _ _).mp hmem
      obtain rfl : block = tracked := Option.some.inj (hblock.symm.trans hlookup)
      exact ⟨⟨block, hblock, rfl, htx⟩, hwindow, hreplaced⟩
    · rintro ⟨⟨tracked, hlookup, rfl, htx⟩, hwindow, hreplaced⟩
      have hmem : (number, tracked.txHashes) ∈ orphaned :=
        (mem_checkReorgs hcheck _ _).mpr ⟨tracked, hlookup, rfl, hwindow, hreplaced⟩
      exact ⟨⟨_, hmem, rfl, htx⟩, tracked, hlookup, rfl⟩

theorem holding_of_returns {t : FinalityTracker} {number : ℤ} {hash tx : String} {c : Call ε}
    (h : t.returns lower number hash tx c) :
    t.Holding number hash tx ∧ ¬ (t.call lower c).Holding number hash tx := by
  cases c with
  | record => simp [returns] at h
  | checkReorgs latestBlock getCanonicalHash =>
    obtain ⟨hholding, -, hreplaced, orphaned, hok⟩ := returns_checkReorgs.mp h
    refine ⟨hholding, ?_⟩
    intro hafter
    exact (holding_checkReorgs.mp hafter).2.2 orphaned hok hreplaced

theorem holding_of_call {t : FinalityTracker} {number : ℤ} {hash tx : String} {c : Call ε}
    (hc : c ≠ .record number hash tx) (h : (t.call lower c).Holding number hash tx) :
    t.Holding number hash tx := by
  cases c with
  | checkReorgs => exact (holding_checkReorgs.mp h).1
  | record n blockHash txHash =>
    by_cases hempty : blockHash = ""
    · subst hempty
      exact t.record_empty n txHash ▸ h
    · by_cases hn : number = n
      · subst hn
        obtain ⟨rfl, rfl | hheld⟩ := (holding_record_self t number hempty txHash hash tx).mp h
        · exact absurd rfl hc
        · exact hheld
      · exact (holding_record_ne t hn _ _ _ _).mp h

theorem timesReturned_append (t : FinalityTracker) (number : ℤ) (hash tx : String)
    (cs ds : List (Call ε)) :
    timesReturned lower number hash tx t (cs ++ ds) =
      timesReturned lower number hash tx t cs +
        timesReturned lower number hash tx (t.calls lower cs) ds := by
  induction cs generalizing t with
  | nil => simp [timesReturned, calls]
  | cons c cs ih =>
    rw [List.cons_append, timesReturned, timesReturned, ih]
    simp [calls, Nat.add_assoc]

theorem timesReturned_eq_zero {t : FinalityTracker} {number : ℤ} {hash tx : String}
    {cs : List (Call ε)} (hrecord : ∀ c ∈ cs, c ≠ .record number hash tx)
    (h : ¬ t.Holding number hash tx) : timesReturned lower number hash tx t cs = 0 := by
  induction cs generalizing t with
  | nil => rfl
  | cons c cs ih =>
    have hc := hrecord c List.mem_cons_self
    have hnow : t.returns lower number hash tx c = false := by
      by_contra hreturned
      exact h (holding_of_returns (Bool.not_eq_false _ ▸ hreturned)).1
    have hlater := ih (t := t.call lower c)
      (fun d hd => hrecord d (List.mem_cons_of_mem c hd)) fun hafter =>
        h (holding_of_call hc hafter)
    rw [timesReturned, hnow, hlater]
    rfl

theorem timesReturned_le_one {t : FinalityTracker} {number : ℤ} {hash tx : String}
    {cs : List (Call ε)} (hrecord : ∀ c ∈ cs, c ≠ .record number hash tx) :
    timesReturned lower number hash tx t cs ≤ 1 := by
  induction cs generalizing t with
  | nil => exact Nat.zero_le 1
  | cons c cs ih =>
    have hlater : ∀ d ∈ cs, d ≠ .record number hash tx :=
      fun d hd => hrecord d (List.mem_cons_of_mem c hd)
    rw [timesReturned]
    cases hnow : t.returns lower number hash tx c with
    | false => simpa using ih hlater
    | true => simp [timesReturned_eq_zero hlater (holding_of_returns hnow).2]

/-- A check that has the height in its window and, if it ends, does not find another block
there. -/
def Undecided (lower : String → String) (t : FinalityTracker) (number : ℤ) (hash : String) :
    Call ε → Prop
  | .record .. => True
  | .checkReorgs latestBlock getCanonicalHash =>
    t.InWindow latestBlock number ∧
      ∀ orphaned, (t.checkReorgs lower latestBlock getCanonicalHash).2 = .ok orphaned →
        ¬ Replaced lower getCanonicalHash number hash

/-- The call records another block at the height, if only in the case of its letters. -/
def RecordsOther (number : ℤ) (hash : String) : Call ε → Prop
  | .record blockNumber blockHash _ => blockNumber = number ∧ blockHash ≠ "" ∧ blockHash ≠ hash
  | .checkReorgs .. => False

theorem not_returns_of_undecided {t : FinalityTracker} {number : ℤ} {hash tx : String}
    {c : Call ε} (h : t.Undecided lower number hash c) :
    t.returns lower number hash tx c = false := by
  cases c with
  | record => rfl
  | checkReorgs latestBlock getCanonicalHash =>
    by_contra hreturned
    obtain ⟨-, -, hreplaced, orphaned, hok⟩ :=
      returns_checkReorgs.mp (Bool.not_eq_false _ ▸ hreturned)
    exact h.2 orphaned hok hreplaced

theorem holding_call {t : FinalityTracker} {number : ℤ} {hash tx : String} {c : Call ε}
    (h : t.Undecided lower number hash c) (hother : ¬ RecordsOther number hash c)
    (hheld : t.Holding number hash tx) : (t.call lower c).Holding number hash tx := by
  cases c with
  | checkReorgs => exact holding_checkReorgs.mpr ⟨hheld, h⟩
  | record n blockHash txHash =>
    by_cases hempty : blockHash = ""
    · subst hempty
      exact (t.record_empty n txHash).symm ▸ hheld
    · by_cases hn : number = n
      · subst hn
        have hsame : blockHash = hash := by
          by_contra hne
          exact hother ⟨rfl, hempty, hne⟩
        exact (holding_record_self t number hempty txHash hash tx).mpr ⟨hsame.symm, .inr hheld⟩
      · exact (holding_record_ne t hn _ _ _ _).mpr hheld

theorem not_holding_of_recordsOther {t : FinalityTracker} {number : ℤ} {hash tx : String}
    {c : Call ε} (h : RecordsOther number hash c) :
    ¬ (t.call lower c).Holding number hash tx := by
  cases c with
  | checkReorgs => exact h.elim
  | record n blockHash txHash =>
    obtain ⟨rfl, hempty, hne⟩ := h
    intro hheld
    exact hne ((holding_record_self t n hempty txHash hash tx).mp hheld).1.symm

def UndecidedThrough (lower : String → String) (number : ℤ) (hash : String) :
    FinalityTracker → List (Call ε) → Prop
  | _, [] => True
  | t, c :: cs => t.Undecided lower number hash c ∧
      UndecidedThrough lower number hash (t.call lower c) cs

theorem timesReturned_undecided {t : FinalityTracker} {number : ℤ} {hash tx : String}
    {cs : List (Call ε)} (h : UndecidedThrough lower number hash t cs) :
    timesReturned lower number hash tx t cs = 0 := by
  induction cs generalizing t with
  | nil => rfl
  | cons c cs ih =>
    rw [timesReturned, not_returns_of_undecided h.1, ih h.2]
    rfl

/-- The run lemma: through undecided calls a transaction stays held exactly when no other block
is recorded at its height. -/
theorem holding_calls_iff {t : FinalityTracker} {number : ℤ} {hash tx : String}
    {cs : List (Call ε)} (hrecord : ∀ c ∈ cs, c ≠ .record number hash tx)
    (h : UndecidedThrough lower number hash t cs) :
    (t.calls lower cs).Holding number hash tx ↔
      t.Holding number hash tx ∧ ∀ c ∈ cs, ¬ RecordsOther number hash c := by
  induction cs generalizing t with
  | nil => simp [calls]
  | cons c cs ih =>
    have hlater := ih (fun d hd => hrecord d (List.mem_cons_of_mem c hd)) h.2
    have hstep : (t.call lower c).Holding number hash tx ↔
        t.Holding number hash tx ∧ ¬ RecordsOther number hash c := by
      constructor
      · intro hafter
        refine ⟨holding_of_call (hrecord c List.mem_cons_self) hafter, ?_⟩
        intro hother
        exact not_holding_of_recordsOther hother hafter
      · rintro ⟨hheld, hother⟩
        exact holding_call h.1 hother hheld
    change ((t.call lower c).calls lower cs).Holding number hash tx ↔ _
    rw [hlater, hstep, List.forall_mem_cons, and_assoc]

theorem oldest_record (t : FinalityTracker) (number : ℤ) (blockHash txHash : String)
    (latestBlock : ℤ) :
    (t.record number blockHash txHash).oldest latestBlock = t.oldest latestBlock := by
  rw [record]
  by_cases hempty : blockHash = ""
  · rw [if_pos hempty]
  · rw [if_neg hempty]
    rfl

theorem oldest_call (t : FinalityTracker) (c : Call ε) (latestBlock : ℤ) :
    (t.call lower c).oldest latestBlock = t.oldest latestBlock := by
  cases c with
  | record n blockHash txHash => exact t.oldest_record n blockHash txHash latestBlock
  | checkReorgs latest getCanonicalHash =>
    rw [call, checkReorgs]
    cases orphans lower getCanonicalHash
        ((t.prune latest).blocks.entries.insertionSort fun a b => a.1 ≤ b.1) with
    | error e => rfl
    | ok found => rfl

theorem inWindow_calls {t : FinalityTracker} {cs : List (Call ε)} {latestBlock number : ℤ} :
    (t.calls lower cs).InWindow latestBlock number ↔ t.InWindow latestBlock number := by
  induction cs generalizing t with
  | nil => rfl
  | cons c cs ih =>
    change ((t.call lower c).calls lower cs).InWindow latestBlock number ↔ _
    rw [ih, InWindow, oldest_call]
    rfl

/-- A transaction recorded for the last time in a block, and the first later check that ends and
finds another block in its place: exactly one check returns the transaction for the block
exactly when no other block was recorded at the height in between. -/
theorem returned_once_iff {t : FinalityTracker} {mid rest : List (Call ε)} {number : ℤ}
    {hash tx : String} {latestBlock : ℤ} {getCanonicalHash : ℤ → Except ε (Option String)}
    (hhash : hash ≠ "") (hrecord : ∀ c ∈ mid ++ rest, c ≠ .record number hash tx)
    (hmid : UndecidedThrough lower number hash (t.record number hash tx) mid)
    (hwindow : t.InWindow latestBlock number)
    (hends : ∃ orphaned, (((t.record number hash tx).calls lower mid).checkReorgs lower
      latestBlock getCanonicalHash).2 = .ok orphaned)
    (hreplaced : Replaced lower getCanonicalHash number hash) :
    timesReturned lower number hash tx t
        (.record number hash tx :: mid ++ .checkReorgs latestBlock getCanonicalHash :: rest) = 1 ↔
      ∀ c ∈ mid, ¬ RecordsOther number hash c := by
  have hmidRecord := fun c hc => hrecord c (List.mem_append_left rest hc)
  have hrestRecord := fun c hc => hrecord c (List.mem_append_right mid hc)
  have hrecorded : (t.record number hash tx).Holding number hash tx :=
    (holding_record_self t number hhash tx hash tx).mpr ⟨rfl, .inl rfl⟩
  have hheld : ((t.record number hash tx).calls lower mid).Holding number hash tx ↔ _ :=
    holding_calls_iff hmidRecord hmid
  have hcount : timesReturned lower number hash tx t
      (.record number hash tx :: mid ++ .checkReorgs latestBlock getCanonicalHash :: rest) =
      timesReturned lower number hash tx ((t.record number hash tx).calls lower mid)
        (.checkReorgs latestBlock getCanonicalHash :: rest) := by
    rw [List.cons_append, timesReturned, returns, timesReturned_append]
    simp [call, timesReturned_undecided hmid]
  rw [hcount]
  constructor
  · intro honce
    by_contra hother
    have hdropped : ¬ ((t.record number hash tx).calls lower mid).Holding number hash tx :=
      fun h => hother (hheld.mp h).2
    rw [timesReturned_eq_zero (by simpa using hrestRecord) hdropped] at honce
    omega
  · intro hkept
    have hnow : ((t.record number hash tx).calls lower mid).returns lower number hash tx
        (.checkReorgs latestBlock getCanonicalHash) := by
      apply returns_checkReorgs.mpr
      refine ⟨hheld.mpr ⟨hrecorded, hkept⟩, ?_, hreplaced, hends⟩
      apply inWindow_calls.mpr
      rw [InWindow, oldest_record]
      exact hwindow
    rw [timesReturned, hnow, timesReturned_eq_zero hrestRecord (holding_of_returns hnow).2]
    rfl

def newTracker : FinalityTracker where
  confirmationDepth := 12
  reorgCheckBlocks := 128
  blocks := ∅
  depth_nonneg := by decide

def chainWith (number : ℤ) (blockHash : String) (n : ℤ) : Except Empty (Option String) :=
  .ok (if n = number then some blockHash else none)

theorem returned_once_recased :
    newTracker.timesReturned String.toLower 10 "0xaa" "0xt1"
      (.record 10 "0xaa" "0xt1" ::
          [.record 10 "0xaa" "0xt2", .checkReorgs 100 (chainWith 10 "0xAA")] ++
        .checkReorgs 101 (chainWith 10 "0xbb") :: [.record 10 "0xbb" "0xt1"]) = 1 := by
  apply (returned_once_iff (by decide) _ _ _ _ _).mpr
  · simp [RecordsOther]
  · simp
  · refine ⟨trivial, ⟨by decide +kernel, ?_⟩, trivial⟩
    rintro orphaned - ⟨canonical, hcanonical, hdiffers⟩
    obtain rfl : canonical = some "0xAA" := by simpa [chainWith] using hcanonical.symm
    revert hdiffers
    decide +kernel
  · decide +kernel
  · exact checkReorgs_ends (fun n => ⟨_, rfl⟩) _ 101
  · exact ⟨some "0xbb", by decide, by decide +kernel⟩

/-- The transaction of the replaced block is never returned, though the chain has another block
there at every check. -/
theorem replaced_block_not_returned :
    newTracker.InWindow 100 10 ∧ Replaced String.toLower (chainWith 10 "0xbb") 10 "0xaa" ∧
      newTracker.timesReturned String.toLower 10 "0xaa" "0xt1"
        [.record 10 "0xaa" "0xt1", .record 10 "0xbb" "0xt2",
          .checkReorgs 100 (chainWith 10 "0xbb"), .checkReorgs 101 (chainWith 10 "0xbb")] = 0 := by
  refine ⟨by decide +kernel, ⟨some "0xbb", by decide, by decide +kernel⟩, by decide +kernel⟩

end FinalityTracker

end Chain

end EvmFinality
