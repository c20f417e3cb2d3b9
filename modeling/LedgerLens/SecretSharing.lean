import LedgerLens.FallibleRuns
import Mathlib.Algebra.BigOperators.Group.List.Basic
import Mathlib.Algebra.Order.Ring.Rat
import Mathlib.Data.Fin.VecNotation
import Mathlib.Data.List.Perm.Basic
import Mathlib.Logic.Function.Basic

/-!
# Additive secret sharing of gradients

`detection/federated/smpc.py` and the share endpoints of `detection/federated/server.py`. Gradients
are taken from any commutative group; all three partial sums add up to the gradients, and two of
them exactly where the third is zero.
-/
namespace SecretSharing

variable {V : Type*} [AddCommGroup V]

inductive SmpcError where
  | tooFewShares
  | emptyShares
  | tooFewPartialSums
  | commitmentMismatch (got expected : String)
  | noShares
  | unknownAggregator (id : ℕ)
  deriving DecidableEq

/-- `normal` gives the draws of the generator, one for each share but the last. -/
def splitGradient (gradient : V) (nShares : ℕ) (normal : ℕ → V) : Except SmpcError (List V) :=
  if nShares < 2 then .error .tooFewShares
  else
    let shares := (List.range (nShares - 1)).map normal
    .ok (shares ++ [gradient - shares.sum])

def aggregateShares : List V → Except SmpcError V
  | [] => .error .emptyShares
  | share :: shares => .ok (shares.foldl (· + ·) share)

def reconstructGradient (partialSums : List V) : Except SmpcError V :=
  if partialSums.length < 2 then .error .tooFewPartialSums else .ok partialSums.sum

structure SmpcAggregator (V : Type*) where
  aggregatorId : ℕ
  nAggregators : ℕ
  shares : List V
  commitments : List String

namespace SmpcAggregator

def new (aggregatorId : ℕ) : SmpcAggregator V := ⟨aggregatorId, 3, [], []⟩

/-- `commitShare` is the SHA-256 of the bytes of a share. -/
def receiveShare (commitShare : V → String) (agg : SmpcAggregator V) (share : V)
    (commitment : Option String) : Except SmpcError (SmpcAggregator V) :=
  if ∃ c ∈ commitment, c ≠ commitShare share then
    .error (.commitmentMismatch (commitShare share) (commitment.getD ""))
  else .ok
    { agg with
      shares := agg.shares ++ [share]
      commitments := agg.commitments ++ [commitment.getD (commitShare share)] }

def finalize (agg : SmpcAggregator V) : Except SmpcError V :=
  if agg.shares.length = 0 then .error .noShares else aggregateShares agg.shares

end SmpcAggregator

structure ShareRequest (V : Type*) where
  aggregatorId : ℕ
  share : V
  commitment : Option String

/-- `_smpc_aggregators`. -/
abbrev Aggregators (V : Type*) := ℕ → Option (SmpcAggregator V)

/-- The aggregator is made at its first request, also where the share is then refused. -/
def smpcReceiveShare (commitShare : V → String) (aggs : Aggregators V) (req : ShareRequest V) :
    Except SmpcError Unit × Aggregators V :=
  let agg := (aggs req.aggregatorId).getD (.new req.aggregatorId)
  match agg.receiveShare commitShare req.share req.commitment with
  | .error e => (.error e, Function.update aggs req.aggregatorId (some agg))
  | .ok agg => (.ok (), Function.update aggs req.aggregatorId (some agg))

def smpcGetPartialSum (aggs : Aggregators V) (aggregatorId : ℕ) : Except SmpcError V :=
  match aggs aggregatorId with
  | none => .error (.unknownAggregator aggregatorId)
  | some agg => agg.finalize

def smpcReconstruct (partialSums : List V) : Except SmpcError V :=
  if partialSums.length < 2 then .error .tooFewPartialSums else reconstructGradient partialSums

/-- A gradient and the draws that hide it. -/
structure Client (V : Type*) where
  gradient : V
  normal : ℕ → V

/-- `split_gradient_for_smpc`. -/
def Client.shares (c : Client V) : List V :=
  ((splitGradient c.gradient 3 c.normal).toOption).getD []

def Client.share (c : Client V) (i : ℕ) : V := c.shares.getD i 0

/-- Share `i` goes to aggregator `i`, with its commitment. -/
def Client.requests (commitShare : V → String) (c : Client V) : List (ShareRequest V) :=
  (List.range 3).map fun i => ⟨i, c.share i, some (commitShare (c.share i))⟩

def receiveAll (commitShare : V → String) (requests : List (ShareRequest V)) : Aggregators V :=
  requests.foldl (fun aggs req => (smpcReceiveShare commitShare aggs req).2) fun _ => none

def reconstructFrom (aggs : Aggregators V) (responding : List ℕ) : Except SmpcError V := do
  let partialSums ← responding.mapM (smpcGetPartialSum aggs)
  smpcReconstruct partialSums

/-- What the aggregators that do not respond hold. -/
def missingSum (clients : List (Client V)) (responding : List ℕ) : V :=
  (((List.range 3).filter fun i => i ∉ responding).map fun i =>
    (clients.map fun c => c.share i).sum).sum

def sharesAt (aggs : Aggregators V) (i : ℕ) : List V :=
  ((aggs i).map SmpcAggregator.shares).getD []

section

variable {commitShare : V → String} {clients : List (Client V)} {requests : List (ShareRequest V)}
  {responding : List ℕ}

theorem splitGradient_sum {gradient : V} {nShares : ℕ} {normal : ℕ → V} {shares : List V}
    (h : splitGradient gradient nShares normal = .ok shares) : shares.sum = gradient := by
  unfold splitGradient at h
  split_ifs at h
  obtain rfl := Except.ok.inj h
  rw [List.sum_append, List.sum_singleton, add_sub_cancel]

theorem sum_share (c : Client V) : ((List.range 3).map c.share).sum = c.gradient := by
  have hsplit : splitGradient c.gradient 3 c.normal = .ok c.shares := rfl
  rw [← splitGradient_sum hsplit]
  rfl

theorem aggregateShares_sum {shares : List V} (h : shares ≠ []) :
    aggregateShares shares = .ok shares.sum := by
  cases shares with
  | nil => exact absurd rfl h
  | cons share shares => rw [aggregateShares, List.sum_eq_foldl, List.foldl_cons, zero_add]

theorem smpcGetPartialSum_eq_ok {aggs : Aggregators V} {i : ℕ} {v : V} :
    smpcGetPartialSum aggs i = .ok v ↔ sharesAt aggs i ≠ [] ∧ v = (sharesAt aggs i).sum := by
  unfold smpcGetPartialSum sharesAt
  cases aggs i with
  | none => simp
  | some agg =>
    simp only [Option.map_some, Option.getD_some, SmpcAggregator.finalize]
    by_cases hempty : agg.shares = []
    · simp [hempty]
    · simp [hempty, aggregateShares_sum hempty, eq_comm]

omit [AddCommGroup V] in
theorem sharesAt_receive {aggs : Aggregators V} {req : ShareRequest V}
    (hvalid : req.commitment = some (commitShare req.share)) (i : ℕ) :
    sharesAt (smpcReceiveShare commitShare aggs req).2 i =
      sharesAt aggs i ++ if req.aggregatorId = i then [req.share] else [] := by
  have hreceive (agg : SmpcAggregator V) : agg.receiveShare commitShare req.share req.commitment =
      .ok { agg with
        shares := agg.shares ++ [req.share]
        commitments := agg.commitments ++ [commitShare req.share] } := by
    simp [SmpcAggregator.receiveShare, hvalid]
  simp only [smpcReceiveShare, hreceive, sharesAt]
  by_cases hi : req.aggregatorId = i
  · subst hi
    cases aggs req.aggregatorId <;> simp [SmpcAggregator.new]
  · simp [Function.update_of_ne (Ne.symm hi), hi]

omit [AddCommGroup V] in
theorem sharesAt_receiveAll (hvalid : ∀ req ∈ requests, req.commitment =
    some (commitShare req.share)) (i : ℕ) : sharesAt (receiveAll commitShare requests) i =
      (requests.filter fun req => req.aggregatorId = i).map ShareRequest.share := by
  unfold receiveAll
  induction requests using List.reverseRecOn with
  | nil => rfl
  | append_singleton requests req ih =>
    have hlast := hvalid req (List.mem_append_right _ (List.mem_singleton_self req))
    have hrest := ih fun r hr => hvalid r (List.mem_append_left _ hr)
    rw [List.foldl_append, List.foldl_cons, List.foldl_nil, sharesAt_receive hlast, hrest,
      List.filter_append, List.map_append]
    by_cases hi : req.aggregatorId = i <;> simp [hi]

theorem sharesAt_perm (hperm : requests.Perm (clients.flatMap (Client.requests commitShare)))
    {i : ℕ} (hi : i < 3) : (sharesAt (receiveAll commitShare requests) i).Perm
      (clients.map fun c => c.share i) := by
  have hvalid : ∀ req ∈ requests, req.commitment = some (commitShare req.share) := by
    intro req hreq
    obtain ⟨c, -, hc⟩ := List.mem_flatMap.mp (hperm.mem_iff.mp hreq)
    obtain ⟨j, -, rfl⟩ := List.mem_map.mp hc
    rfl
  have hone (c : Client V) : ((c.requests commitShare).filter fun req => req.aggregatorId = i).map
      ShareRequest.share = [c.share i] := by
    have hcases : i = 0 ∨ i = 1 ∨ i = 2 := by omega
    rcases hcases with rfl | rfl | rfl <;> rfl
  rw [sharesAt_receiveAll hvalid]
  refine ((hperm.filter _).map _).trans (.of_eq ?_)
  rw [List.filter_flatMap, List.map_flatMap, List.map_eq_flatMap]
  exact List.flatMap_congr fun c _ => hone c

theorem sum_partialSums (clients : List (Client V)) :
    ((List.range 3).map fun i => (clients.map fun c => c.share i).sum).sum =
      (clients.map Client.gradient).sum := by
  induction clients with
  | nil => simp
  | cons c clients ih =>
    simp only [List.map_cons, List.sum_cons]
    rw [List.sum_map_add, ih, sum_share]

theorem responding_add_missing (hnodup : responding.Nodup) (hsub : responding ⊆ List.range 3) :
    (responding.map fun i => (clients.map fun c => c.share i).sum).sum +
      missingSum clients responding = (clients.map Client.gradient).sum := by
  have hperm : responding.Perm ((List.range 3).filter fun i => i ∈ responding) := by
    refine (List.perm_ext_iff_of_nodup hnodup (List.nodup_range.filter _)).mpr fun i => ?_
    simp only [List.mem_filter, decide_eq_true_eq]
    exact ⟨fun hi => ⟨hsub hi, hi⟩, fun hi => hi.2⟩
  have hsplit := List.filter_append_perm (fun i => decide (i ∈ responding)) (List.range 3)
  rw [missingSum, (hperm.map _).sum_eq, ← List.sum_append, ← List.map_append,
    ← sum_partialSums clients]
  refine (List.Perm.map _ (.trans (.of_eq ?_) hsplit)).sum_eq
  simp only [decide_not]

theorem reconstructs_iff_missing_zero
    (hperm : requests.Perm (clients.flatMap (Client.requests commitShare)))
    (hnodup : responding.Nodup) (hsub : responding ⊆ List.range 3)
    (hquorum : 2 ≤ responding.length) :
    reconstructFrom (receiveAll commitShare requests) responding =
        .ok (clients.map Client.gradient).sum ↔
      clients ≠ [] ∧ missingSum clients responding = 0 := by
  have hshares : ∀ i ∈ responding, (sharesAt (receiveAll commitShare requests) i).Perm
      (clients.map fun c => c.share i) :=
    fun i hi => sharesAt_perm hperm (List.mem_range.mp (hsub hi))
  unfold reconstructFrom
  by_cases hclients : clients = []
  · -- Nobody sent a share, and the first partial sum is refused.
    refine iff_of_false (fun h => ?_) fun h => h.1 hclients
    obtain ⟨partialSums, hsums, -⟩ := FallibleRuns.bind_eq_ok.mp h
    obtain ⟨i, rest, rfl⟩ := List.exists_cons_of_length_pos (by omega : 0 < responding.length)
    obtain ⟨v, -, hv, -⟩ := List.forall₂_cons_left_iff.mp (FallibleRuns.mapM_eq_ok.mp hsums)
    have hempty := hshares i List.mem_cons_self
    rw [hclients] at hempty
    exact (smpcGetPartialSum_eq_ok.mp hv).1 (List.perm_nil.mp hempty)
  · have hsums : responding.mapM (smpcGetPartialSum (receiveAll commitShare requests)) =
        .ok (responding.map fun i => (clients.map fun c => c.share i).sum) := by
      rw [FallibleRuns.mapM_eq_ok, List.forall₂_map_right_iff, List.forall₂_same]
      intro i hi
      refine smpcGetPartialSum_eq_ok.mpr ⟨fun hempty => ?_, (hshares i hi).sum_eq.symm⟩
      have hnone := (hshares i hi).symm
      rw [hempty, List.perm_nil, List.map_eq_nil_iff] at hnone
      exact hclients hnone
    have htotal := @responding_add_missing _ _ clients responding hnodup hsub
    have henough : ∀ partialSums : List V, partialSums.length = responding.length →
        smpcReconstruct partialSums = .ok partialSums.sum := by
      intro partialSums hlength
      have : ¬ partialSums.length < 2 := by omega
      rw [smpcReconstruct, reconstructGradient, if_neg this, if_neg this]
    rw [hsums, FallibleRuns.bind_eq_ok]
    simp only [Except.ok.injEq, exists_eq_left', henough _ (List.length_map _)]
    constructor
    · intro hsum
      rw [← htotal] at hsum
      exact ⟨hclients, left_eq_add.mp hsum⟩
    · rintro ⟨-, hzero⟩
      rwa [hzero, add_zero] at htotal

end

/-- A gradient of 6 whose shares are 1, 2 and 3. -/
def sixClient : Client ℚ := ⟨6, fun i => i + 1⟩

theorem reconstructs_iff_missing_zero_six :
    reconstructFrom (receiveAll toString (sixClient.requests toString)) [2, 0, 1] = .ok 6 := by
  have hrequests : (sixClient.requests toString).Perm
      ([sixClient].flatMap (Client.requests toString)) := .of_eq (List.append_nil _).symm
  have hmissing : missingSum [sixClient] [2, 0, 1] = 0 := by decide +kernel
  have hsum : ([sixClient].map Client.gradient).sum = 6 := by decide +kernel
  rw [← hsum]
  exact (reconstructs_iff_missing_zero hrequests (by decide) (by decide) (by decide)).mpr
    ⟨List.cons_ne_nil _ _, hmissing⟩

theorem two_parties_miss_a_share : ¬ ∀ (commitShare : ℚ → String) (clients : List (Client ℚ))
    (requests : List (ShareRequest ℚ)),
    clients ≠ [] → requests.Perm (clients.flatMap (Client.requests commitShare)) →
    ∀ responding : List ℕ, responding.Nodup → responding ⊆ List.range 3 →
    2 ≤ responding.length → reconstructFrom (receiveAll commitShare requests) responding =
      .ok (clients.map Client.gradient).sum := by
  intro hclaim
  have hsix := hclaim toString [sixClient] _ (List.cons_ne_nil _ _) (.refl _) [0, 1] (by decide)
    (by decide) le_rfl
  exact absurd hsix (by decide +kernel)

end SecretSharing
