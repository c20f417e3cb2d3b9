import Mathlib.Algebra.Order.Field.Rat
import Mathlib.Data.Fin.Basic
import Mathlib.Data.Finset.Basic
import Mathlib.Data.List.FinRange
import Mathlib.Logic.Function.Basic

/-!
# Circuits of EVM providers

`EVMProviderPool` of `ingestion/evm_loader.py`: calls open the circuit of a provider that keeps
failing, and probe cycles are to close it again. Both run one after the other. What the providers
answer is a parameter of each step.
-/
namespace EvmProviderPool

structure EVMProvider where
  chainId : ℤ
  name : String
  priority : ℤ := 0
  healthScore : ℚ := 1
  currentBlock : ℤ := 0
  lastProbeAt : Option ℤ := none
  consecutiveFailures : ℕ := 0
  isCircuitOpen : Bool := false

abbrev Key := String × ℤ

def EVMProvider.key (p : EVMProvider) : Key := (p.name, p.chainId)

/-- A pool of `n` providers. -/
structure EVMProviderPool (n : ℕ) where
  providers : Fin n → EVMProvider
  maxBlockLag : ℤ
  circuitBreakerThreshold : ℤ
  requestsTotal : Key → ℕ := fun _ => 0
  errorsTotal : Key → ℕ := fun _ => 0
  lagAlertChains : Finset ℤ := ∅

inductive PoolError where
  | invalidParams
  | exhausted (tried : List String)
  | other
  deriving DecidableEq, Repr

/-- How a provider answers a call. Timeouts and errors of the protocol or the client count as
failures, other exceptions end the call. -/
inductive Answer where
  | ok
  | failure
  | other
  deriving DecidableEq, Repr

def providerScore (p : EVMProvider) (referenceBlock : ℤ) : ℚ :=
  if p.isCircuitOpen then -1
  else p.healthScore - (max 0 (referenceBlock - p.currentBlock) : ℤ) * (1 / 10)

namespace EVMProvider

def succeed (p : EVMProvider) : EVMProvider :=
  { p with consecutiveFailures := 0, healthScore := min 1 (p.healthScore + 1 / 20) }

def fail (p : EVMProvider) (threshold : ℤ) : EVMProvider :=
  { p with
    consecutiveFailures := p.consecutiveFailures + 1
    healthScore := max 0 (p.healthScore - 1 / 5)
    isCircuitOpen := p.isCircuitOpen || threshold ≤ p.consecutiveFailures + 1 }

def probed (p : EVMProvider) (block now : ℤ) : EVMProvider :=
  { p with
    currentBlock := block
    lastProbeAt := some now
    isCircuitOpen := p.isCircuitOpen && p.consecutiveFailures ≠ 0 }

end EVMProvider

/-- The answers of the providers to one round of probes, where they are readable block numbers. -/
structure ProbeCycle (n : ℕ) where
  blocks : Fin n → Option ℤ
  now : ℤ

namespace EVMProviderPool

variable {n : ℕ}

def setProvider (pool : EVMProviderPool n) (i : Fin n) (p : EVMProvider) : EVMProviderPool n :=
  { pool with providers := Function.update pool.providers i p }

def request (pool : EVMProviderPool n) (i : Fin n) : EVMProviderPool n :=
  let key := (pool.providers i).key
  { pool with requestsTotal := Function.update pool.requestsTotal key (pool.requestsTotal key + 1) }

def error (pool : EVMProviderPool n) (i : Fin n) : EVMProviderPool n :=
  let key := (pool.providers i).key
  { pool with errorsTotal := Function.update pool.errorsTotal key (pool.errorsTotal key + 1) }

def chainProviders (pool : EVMProviderPool n) (chainId : ℤ) : List (Fin n) :=
  (List.finRange n).filter fun i => (pool.providers i).chainId = chainId

def referenceBlock (pool : EVMProviderPool n) (chainId : ℤ) : ℤ :=
  ((pool.chainProviders chainId).map fun i => (pool.providers i).currentBlock).max?.getD 0

/-- The higher score first, and of equal scores the lower priority. -/
def sortedProviders (pool : EVMProviderPool n) (chainId : ℤ) : List (Fin n) :=
  let score i := providerScore (pool.providers i) (pool.referenceBlock chainId)
  (pool.chainProviders chainId).mergeSort fun i j =>
    score j < score i ∨
      (score i = score j ∧ (pool.providers i).priority ≤ (pool.providers j).priority)

def tryProviders (answers : Fin n → Answer) :
    List (Fin n) → List String → EVMProviderPool n → EVMProviderPool n × Except PoolError (Fin n)
  | [], tried, pool => (pool, .error (.exhausted tried))
  | i :: rest, tried, pool =>
    let p := pool.providers i
    if p.isCircuitOpen then tryProviders answers rest tried pool
    else
      match answers i with
      | .ok => ((pool.request i).setProvider i p.succeed, .ok i)
      | .failure =>
        tryProviders answers rest (tried ++ [p.name])
          (((pool.request i).error i).setProvider i (p.fail pool.circuitBreakerThreshold))
      | .other => (pool.request i, .error .other)

def call (pool : EVMProviderPool n) (chainId : ℤ) (validParams : Bool) (answers : Fin n → Answer) :
    EVMProviderPool n × Except PoolError (Fin n) :=
  if !validParams then (pool, .error .invalidParams)
  else if pool.sortedProviders chainId = [] then (pool, .error (.exhausted []))
  else tryProviders answers (pool.sortedProviders chainId) [] pool

def chains (pool : EVMProviderPool n) : List ℤ :=
  ((List.finRange n).map fun i => (pool.providers i).chainId).dedup

def checkLagAlerts (pool : EVMProviderPool n) : EVMProviderPool n :=
  { pool with
    lagAlertChains := pool.chains.foldl (fun alerts chainId =>
      let reference := pool.referenceBlock chainId
      if reference = 0 then alerts
      else if ∀ i ∈ pool.chainProviders chainId,
          (pool.providers i).currentBlock < reference - pool.maxBlockLag then insert chainId alerts
      else alerts.erase chainId) pool.lagAlertChains }

def probeProvider (cycle : ProbeCycle n) (pool : EVMProviderPool n) (i : Fin n) :
    EVMProviderPool n :=
  match cycle.blocks i with
  | none => pool
  | some block => pool.setProvider i ((pool.providers i).probed block cycle.now)

def probe (pool : EVMProviderPool n) (cycle : ProbeCycle n) : EVMProviderPool n :=
  ((List.finRange n).foldl (probeProvider cycle) pool).checkLagAlerts

end EVMProviderPool

inductive Action (n : ℕ) where
  | call (chainId : ℤ) (validParams : Bool) (answers : Fin n → Answer)
  | probe (cycle : ProbeCycle n)

namespace EVMProviderPool

variable {n : ℕ}

def perform (pool : EVMProviderPool n) : Action n → EVMProviderPool n
  | .call chainId validParams answers => (pool.call chainId validParams answers).1
  | .probe cycle => pool.probe cycle

def run (pool : EVMProviderPool n) (actions : List (Action n)) : EVMProviderPool n :=
  actions.foldl perform pool

structure Called (p p' : EVMProvider) : Prop where
  skipped : p.isCircuitOpen → p' = p
  opened : p.isCircuitOpen = false → p'.isCircuitOpen → 0 < p'.consecutiveFailures

theorem Called.refl (p : EVMProvider) : Called p p := by
  refine ⟨fun _ => rfl, fun hclosed hopen => ?_⟩
  rw [hclosed] at hopen
  cases hopen

theorem Called.trans {p q r : EVMProvider} (h : Called p q) (h' : Called q r) : Called p r := by
  refine ⟨fun hopen => ?_, fun hclosed hopen => ?_⟩
  · have hq := h.skipped hopen
    rw [hq] at h'
    exact h'.skipped hopen
  · cases hq : q.isCircuitOpen with
    | true =>
      have hr := h'.skipped hq
      rw [hr] at hopen ⊢
      exact h.opened hclosed hopen
    | false => exact h'.opened hq hopen

theorem called_succeed {p : EVMProvider} (h : p.isCircuitOpen = false) : Called p p.succeed := by
  refine ⟨fun hopen => ?_, fun _ hopen => ?_⟩
  · rw [h] at hopen
    cases hopen
  · rw [EVMProvider.succeed, h] at hopen
    cases hopen

theorem called_fail {p : EVMProvider} (h : p.isCircuitOpen = false) (threshold : ℤ) :
    Called p (p.fail threshold) := by
  refine ⟨fun hopen => ?_, fun _ _ => Nat.succ_pos _⟩
  rw [h] at hopen
  cases hopen

theorem providers_setProvider (pool : EVMProviderPool n) (i : Fin n) (p : EVMProvider) :
    (pool.setProvider i p).providers = Function.update pool.providers i p := rfl

theorem called_setProvider (pool : EVMProviderPool n) {i : Fin n} {p : EVMProvider}
    (h : Called (pool.providers i) p) (j : Fin n) :
    Called (pool.providers j) ((pool.setProvider i p).providers j) := by
  rw [providers_setProvider]
  by_cases hj : j = i
  · subst hj
    rw [Function.update_self]
    exact h
  · rw [Function.update_of_ne hj]
    exact .refl _

theorem called_tryProviders (answers : Fin n → Answer) (is : List (Fin n)) (tried : List String)
    (pool : EVMProviderPool n) (j : Fin n) :
    Called (pool.providers j) ((tryProviders answers is tried pool).1.providers j) := by
  induction is generalizing tried pool with
  | nil => exact .refl _
  | cons i rest ih =>
    rw [tryProviders]
    by_cases hopen : (pool.providers i).isCircuitOpen = true
    · rw [if_pos hopen]
      exact ih tried pool
    rw [if_neg hopen]
    have hclosed := Bool.eq_false_iff.mpr hopen
    cases answers i with
    | ok =>
      exact called_setProvider (pool.request i) (called_succeed hclosed) j
    | failure =>
      refine Called.trans ?_ (ih _ _)
      exact called_setProvider ((pool.request i).error i) (called_fail hclosed _) j
    | other => exact .refl _

theorem called_call (pool : EVMProviderPool n) (chainId : ℤ) (validParams : Bool)
    (answers : Fin n → Answer) (j : Fin n) :
    Called (pool.providers j) ((pool.call chainId validParams answers).1.providers j) := by
  rw [call]
  split_ifs
  · exact .refl _
  · exact .refl _
  · exact called_tryProviders answers _ [] pool j

def probedBy (cycle : ProbeCycle n) (i : Fin n) (p : EVMProvider) : EVMProvider :=
  match cycle.blocks i with
  | none => p
  | some block => p.probed block cycle.now

theorem providers_probeProvider (cycle : ProbeCycle n) (pool : EVMProviderPool n) (i : Fin n) :
    (pool.probeProvider cycle i).providers =
      Function.update pool.providers i (probedBy cycle i (pool.providers i)) := by
  rw [probeProvider, probedBy]
  cases cycle.blocks i with
  | none => exact (Function.update_eq_self i pool.providers).symm
  | some block => rfl

theorem providers_foldl_probe (cycle : ProbeCycle n) {is : List (Fin n)} (h : is.Nodup)
    (pool : EVMProviderPool n) (j : Fin n) :
    (is.foldl (probeProvider cycle) pool).providers j =
      if j ∈ is then probedBy cycle j (pool.providers j) else pool.providers j := by
  induction is generalizing pool with
  | nil => rfl
  | cons i rest ih =>
    obtain ⟨hi, hrest⟩ := List.nodup_cons.mp h
    rw [List.foldl_cons, ih hrest, providers_probeProvider]
    by_cases hj : j = i
    · subst hj
      rw [if_neg hi, if_pos List.mem_cons_self, Function.update_self]
    · rw [Function.update_of_ne hj]
      simp only [List.mem_cons, hj, false_or]

theorem providers_probe (pool : EVMProviderPool n) (cycle : ProbeCycle n) (j : Fin n) :
    (pool.probe cycle).providers j = probedBy cycle j (pool.providers j) := by
  rw [probe, checkLagAlerts, providers_foldl_probe cycle (List.nodup_finRange n),
    if_pos (List.mem_finRange j)]

theorem run_concat (pool : EVMProviderPool n) (actions : List (Action n)) (action : Action n) :
    pool.run (actions ++ [action]) = (pool.run actions).perform action := by
  rw [run, List.foldl_append]
  rfl

/-- The provider was given to the pool with an open circuit and no failures, and no probe of it has
succeeded. -/
structure Untouched (pool : EVMProviderPool n) (actions : List (Action n)) (i : Fin n) : Prop where
  built : (pool.providers i).isCircuitOpen = true
  unfailed : (pool.providers i).consecutiveFailures = 0
  unprobed : ∀ cycle, .probe cycle ∈ actions → cycle.blocks i = none

theorem untouched_call_iff {pool : EVMProviderPool n} {actions : List (Action n)} {i : Fin n}
    {chainId : ℤ} {validParams : Bool} {answers : Fin n → Answer} :
    Untouched pool (actions ++ [.call chainId validParams answers]) i ↔
      Untouched pool actions i := by
  constructor
  · rintro ⟨hbuilt, hunfailed, hunprobed⟩
    exact ⟨hbuilt, hunfailed, fun cycle hmem => hunprobed cycle (List.mem_append_left _ hmem)⟩
  · rintro ⟨hbuilt, hunfailed, hunprobed⟩
    refine ⟨hbuilt, hunfailed, fun cycle hmem => hunprobed cycle ?_⟩
    simpa using hmem

theorem untouched_probe_iff {pool : EVMProviderPool n} {actions : List (Action n)} {i : Fin n}
    {cycle : ProbeCycle n} : Untouched pool (actions ++ [.probe cycle]) i ↔
      Untouched pool actions i ∧ cycle.blocks i = none := by
  constructor
  · rintro ⟨hbuilt, hunfailed, hunprobed⟩
    refine ⟨⟨hbuilt, hunfailed, fun c hmem => ?_⟩, hunprobed cycle (by simp)⟩
    exact hunprobed c (List.mem_append_left _ hmem)
  · rintro ⟨⟨hbuilt, hunfailed, hunprobed⟩, hnone⟩
    refine ⟨hbuilt, hunfailed, fun c hmem => ?_⟩
    rcases List.mem_append.mp hmem with hmem | hmem
    · exact hunprobed c hmem
    · rw [Action.probe.inj (List.mem_singleton.mp hmem), hnone]

theorem Called.open_unfailed_iff {p p' : EVMProvider} (h : Called p p') :
    (p'.isCircuitOpen = true ∧ p'.consecutiveFailures = 0) ↔
      (p.isCircuitOpen = true ∧ p.consecutiveFailures = 0) := by
  cases hopen : p.isCircuitOpen with
  | true => rw [h.skipped hopen, hopen]
  | false =>
    refine iff_of_false ?_ fun h => Bool.false_ne_true h.1
    rintro ⟨hopen', hfailures⟩
    exact absurd hfailures (h.opened hopen hopen').ne'

theorem probedBy_open_unfailed_iff (cycle : ProbeCycle n) (i : Fin n) (p : EVMProvider) :
    ((probedBy cycle i p).isCircuitOpen = true ∧ (probedBy cycle i p).consecutiveFailures = 0) ↔
      (p.isCircuitOpen = true ∧ p.consecutiveFailures = 0) ∧ cycle.blocks i = none := by
  rw [probedBy]
  cases cycle.blocks i with
  | none => exact (and_iff_left rfl).symm
  | some block =>
    refine iff_of_false ?_ fun h => Option.some_ne_none _ h.2
    rintro ⟨hopen, hfailures⟩
    simp only [EVMProvider.probed, Bool.and_eq_true, decide_eq_true_eq] at hopen hfailures
    exact hopen.2 hfailures

theorem open_unfailed_iff (pool : EVMProviderPool n) (actions : List (Action n)) (i : Fin n) :
    (((pool.run actions).providers i).isCircuitOpen = true ∧
      ((pool.run actions).providers i).consecutiveFailures = 0) ↔ Untouched pool actions i := by
  induction actions using List.reverseRecOn with
  | nil =>
    constructor
    · rintro ⟨hopen, hfailures⟩
      exact ⟨hopen, hfailures, fun _ hmem => absurd hmem List.not_mem_nil⟩
    · rintro ⟨hopen, hfailures, -⟩
      exact ⟨hopen, hfailures⟩
  | append_singleton actions action ih =>
    rw [run_concat]
    cases action with
    | call chainId validParams answers =>
      rw [perform, untouched_call_iff, ← ih]
      exact (called_call (pool.run actions) chainId validParams answers i).open_unfailed_iff
    | probe cycle =>
      rw [perform, untouched_probe_iff, ← ih, providers_probe]
      exact probedBy_open_unfailed_iff cycle i _

def Recovers (pool : EVMProviderPool n) (cycle : ProbeCycle n) : Prop :=
  ∀ i, (pool.providers i).isCircuitOpen → (cycle.blocks i).isSome →
    ((pool.probe cycle).providers i).isCircuitOpen = false

theorem recovers_iff (pool : EVMProviderPool n) (cycle : ProbeCycle n) : pool.Recovers cycle ↔
    ∀ i, (pool.providers i).isCircuitOpen → (cycle.blocks i).isSome →
      (pool.providers i).consecutiveFailures = 0 := by
  refine forall_congr' fun i => imp_congr_right fun hopen => imp_congr_right fun hsome => ?_
  obtain ⟨block, hblock⟩ := Option.isSome_iff_exists.mp hsome
  rw [providers_probe, probedBy, hblock]
  simp [EVMProvider.probed, hopen]

end EVMProviderPool

section Results

open EVMProviderPool

variable {n : ℕ}

/-- In a run every successful probe closes an open circuit if and only if it meets one only where
the provider was built with it, has not failed and was not probed with success before: no circuit
that a call opened is ever closed. -/
theorem probes_recover_iff (pool : EVMProviderPool n) (actions : List (Action n)) :
    (∀ before cycle after, actions = before ++ .probe cycle :: after →
      (pool.run before).Recovers cycle) ↔
      ∀ before cycle after, actions = before ++ .probe cycle :: after →
        ∀ i, ((pool.run before).providers i).isCircuitOpen → (cycle.blocks i).isSome →
          Untouched pool before i := by
  refine forall_congr' fun before => forall_congr' fun cycle => forall_congr' fun after =>
    imp_congr_right fun _ => ?_
  rw [recovers_iff]
  refine forall_congr' fun i => imp_congr_right fun hopen => imp_congr_right fun _ => ?_
  rw [← open_unfailed_iff, and_iff_right hopen]

end Results

section Examples

def loneProvider : EVMProviderPool 1 where
  providers := fun _ => { chainId := 1, name := "primary" }
  maxBlockLag := 10
  circuitBreakerThreshold := 1

def failedCall : Action 1 := .call 1 true fun _ => .failure

/-- A failed call opens the circuit, and the probe that then succeeds leaves it open. -/
theorem loneProvider_not_recovered :
    ¬ ∀ before cycle after, [failedCall, .probe ⟨fun _ => some 100, 0⟩] =
      before ++ .probe cycle :: after → (loneProvider.run before).Recovers cycle := by
  intro hall
  have hrecovers := hall [failedCall] ⟨fun _ => some 100, 0⟩ [] rfl 0 (by decide +kernel)
    (by decide)
  exact absurd hrecovers (by decide +kernel)

end Examples

end EvmProviderPool
