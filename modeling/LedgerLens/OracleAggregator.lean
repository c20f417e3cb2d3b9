import LedgerLens.ByteStrings
import LedgerLens.FallibleRuns
import Mathlib.Data.Finset.Card
import Mathlib.Data.List.Nodup

/-!
# The oracle aggregator contract

`contracts/oracle_aggregator/src/lib.rs`: one-time configuration, the canonical message
and the quorum loop. Host functions and the score contract are parameters; a panic or a
failed host call traps, and a trap undoes the whole invocation.
-/
namespace OracleAggregator

open ByteStrings FallibleRuns

structure Address where
  strkey : String
  deriving DecidableEq, Repr

structure Symbol where
  name : String
  deriving DecidableEq, Repr

structure SignaturePair where
  publicKey : BytesN 32
  signature : BytesN 64
  deriving DecidableEq

inductive Trap where
  | unauthorized
  | alreadyInitialized
  | thresholdZero
  | thresholdExceedsKeys
  | notInitialized
  | stringExceedsBuffer
  | invalidSignature
  | targetFailed
  deriving DecidableEq, Repr

structure Storage where
  deployer : Option Address
  threshold : Option UInt32
  oracleKeys : Option (List (BytesN 32))
  scoreContract : Option Address
  deriving DecidableEq

structure Submission where
  wallet : Address
  assetPair : Symbol
  score : UInt32
  benfordFlag : Bool
  mlFlag : Bool
  timestamp : UInt64
  confidence : UInt32
  modelVersion : UInt32
  deriving DecidableEq, Repr

/-- The sub-invocation the contract authorises and performs; its attestation is `None`. -/
structure Invocation where
  contract : Address
  functionName : Symbol
  signers : List Address
  submission : Submission
  deriving DecidableEq, Repr

structure Host where
  sha256 : List UInt8 → BytesN 32
  ed25519Verify : BytesN 32 → List UInt8 → BytesN 64 → Bool
  symbolToXdr : Symbol → List UInt8
  currentContractAddress : Address
  /-- Whether the score contract returns rather than traps. -/
  targetReturns : Invocation → Bool

def initializeContract (requireAuth : Address → Bool) (s : Storage) (deployer : Address)
    (threshold : UInt32) (oracleKeys : List (BytesN 32)) (scoreContract : Address) :
    Except Trap Storage :=
  if ¬ requireAuth deployer then throw .unauthorized
  else if s.threshold.isSome then throw .alreadyInitialized
  else if threshold = 0 then throw .thresholdZero
  else if oracleKeys.length < threshold.toNat then throw .thresholdExceedsKeys
  else pure ⟨some deployer, some threshold, some oracleKeys, some scoreContract⟩

def getDeployer (s : Storage) : Except Trap Address :=
  match s.deployer with
  | none => throw .notInitialized
  | some deployer => pure deployer

def DOMAIN_SEPARATOR : List UInt8 := "LedgerLens-Oracle-v2".toUTF8.toList
def MAX_TIMESTAMP_AGE_SECS : UInt64 := 300
def ADDRESS_STRKEY_LEN : ℕ := 56

def appendString (msg : List UInt8) (value : String) (bufLen : ℕ) : Except Trap (List UInt8) :=
  let bytes := value.toUTF8.toList
  if bufLen < bytes.length then throw .stringExceedsBuffer else pure (msg ++ bytes)

def separator : List UInt8 := "|".toUTF8.toList

def canonicalPreimage (host : Host) (c : Submission) : Except Trap (List UInt8) := do
  let msg ← appendString DOMAIN_SEPARATOR c.wallet.strkey ADDRESS_STRKEY_LEN
  return msg ++ separator ++ host.symbolToXdr c.assetPair ++ separator ++
    toBigEndian 4 c.score.toNat ++ [c.benfordFlag.toUInt8, c.mlFlag.toUInt8] ++
    toBigEndian 8 c.timestamp.toNat ++ toBigEndian 4 c.confidence.toNat ++
    toBigEndian 4 c.modelVersion.toNat

def buildCanonicalMessage (host : Host) (c : Submission) : Except Trap (List UInt8) := do
  return (host.sha256 (← canonicalPreimage host c)).bytes

def countSignature (host : Host) (oracleKeys : List (BytesN 32)) (message : List UInt8)
    (counted : List (BytesN 32)) (sp : SignaturePair) : Except Trap (List (BytesN 32)) :=
  if sp.publicKey ∉ oracleKeys then pure counted
  else if sp.publicKey ∈ counted then pure counted
  else if ¬ host.ed25519Verify sp.publicKey message sp.signature then throw .invalidSignature
  else pure (counted ++ [sp.publicKey])

def countSignatures (host : Host) (oracleKeys : List (BytesN 32)) (message : List UInt8)
    (signatures : List SignaturePair) : Except Trap (List (BytesN 32)) :=
  signatures.foldlM (countSignature host oracleKeys message) []

def Stale (currentTime timestamp : UInt64) : Prop :=
  timestamp < currentTime ∧ MAX_TIMESTAMP_AGE_SECS < currentTime - timestamp

instance (currentTime timestamp : UInt64) : Decidable (Stale currentTime timestamp) :=
  inferInstanceAs (Decidable (_ ∧ _))

def forwarded (host : Host) (contract : Address) (c : Submission) : Invocation where
  contract := contract
  functionName := ⟨"submit_score"⟩
  signers := [host.currentContractAddress]
  submission := c

def submitWithQuorum (host : Host) (currentTime : UInt64) (s : Storage) (c : Submission)
    (signatures : List SignaturePair) : Except Trap (Bool × List Invocation) :=
  if Stale currentTime c.timestamp then pure (false, [])
  else
    match s.threshold, s.oracleKeys with
    | some threshold, some oracleKeys => do
      let message ← buildCanonicalMessage host c
      let counted ← countSignatures host oracleKeys message signatures
      if counted.length < threshold.toNat then pure (false, [])
      else
        match s.scoreContract with
        | none => throw .notInitialized
        | some contract =>
          let call := forwarded host contract c
          if host.targetReturns call then pure (true, [call]) else throw .targetFailed
    | _, _ => throw .notInitialized

inductive Reachable : Storage → Prop where
  | deployed : Reachable ⟨none, none, none, none⟩
  | configured {s t : Storage} (auth : Address → Bool) (deployer : Address) (threshold : UInt32)
      (oracleKeys : List (BytesN 32)) (scoreContract : Address) : Reachable s →
      initializeContract auth s deployer threshold oracleKeys scoreContract = .ok t → Reachable t

inductive WellConfigured : Storage → Prop where
  | empty : WellConfigured ⟨none, none, none, none⟩
  | full (deployer : Address) {threshold : UInt32} {oracleKeys : List (BytesN 32)}
      (scoreContract : Address) : 0 < threshold.toNat → threshold.toNat ≤ oracleKeys.length →
      WellConfigured ⟨some deployer, some threshold, some oracleKeys, some scoreContract⟩

theorem initialize_wellConfigured {auth : Address → Bool} {s t : Storage} {deployer : Address}
    {threshold : UInt32} {oracleKeys : List (BytesN 32)} {scoreContract : Address}
    (h : initializeContract auth s deployer threshold oracleKeys scoreContract = .ok t) :
    WellConfigured t := by
  obtain ⟨-, h⟩ := guard_eq_ok.mp h
  obtain ⟨-, h⟩ := guard_eq_ok.mp h
  obtain ⟨hzero, h⟩ := guard_eq_ok.mp h
  obtain ⟨hlen, h⟩ := guard_eq_ok.mp h
  obtain rfl := pure_eq_ok.mp h
  refine .full deployer scoreContract ?_ (not_lt.mp hlen)
  exact Nat.pos_of_ne_zero fun h0 => hzero (UInt32.toNat_inj.mp h0)

theorem reachable_wellConfigured {s : Storage} (h : Reachable s) : WellConfigured s := by
  cases h with
  | deployed => exact .empty
  | configured _ _ _ _ _ _ hinit => exact initialize_wellConfigured hinit

section Count

variable {host : Host} {oracleKeys : List (BytesN 32)} {message : List UInt8}

/-- What the loop knows about the keys it has counted after the signatures in `seen`. -/
structure Votes (host : Host) (oracleKeys : List (BytesN 32)) (message : List UInt8)
    (seen : List SignaturePair) (counted : List (BytesN 32)) : Prop where
  nodup : counted.Nodup
  mem_iff : ∀ k, k ∈ counted ↔ k ∈ oracleKeys ∧ k ∈ seen.map SignaturePair.publicKey
  signed : ∀ k ∈ counted, ∃ sp ∈ seen, sp.publicKey = k ∧
    host.ed25519Verify k message sp.signature = true

theorem countSignature_cases {counted counted' : List (BytesN 32)} {sp : SignaturePair}
    (h : countSignature host oracleKeys message counted sp = .ok counted') :
    (counted' = counted ∧ (sp.publicKey ∈ oracleKeys → sp.publicKey ∈ counted)) ∨
    (sp.publicKey ∈ oracleKeys ∧ sp.publicKey ∉ counted ∧
      host.ed25519Verify sp.publicKey message sp.signature = true ∧
      counted' = counted ++ [sp.publicKey]) := by
  unfold countSignature at h
  by_cases hknown : sp.publicKey ∈ oracleKeys
  · rw [if_neg (not_not.mpr hknown)] at h
    by_cases hcounted : sp.publicKey ∈ counted
    · rw [if_pos hcounted] at h
      exact .inl ⟨(pure_eq_ok.mp h).symm, fun _ => hcounted⟩
    · rw [if_neg hcounted] at h
      obtain ⟨hvalid, h⟩ := guard_eq_ok.mp h
      exact .inr ⟨hknown, hcounted, not_not.mp hvalid, (pure_eq_ok.mp h).symm⟩
  · rw [if_pos hknown] at h
    exact .inl ⟨(pure_eq_ok.mp h).symm, fun hk => absurd hk hknown⟩

theorem countSignature_preserves_votes {seen : List SignaturePair} {sp : SignaturePair}
    {counted counted' : List (BytesN 32)} (hv : Votes host oracleKeys message seen counted)
    (h : countSignature host oracleKeys message counted sp = .ok counted') :
    Votes host oracleKeys message (seen ++ [sp]) counted' := by
  have earlier (k : BytesN 32) (hk : k ∈ counted) : ∃ sp' ∈ seen ++ [sp], sp'.publicKey = k ∧
      host.ed25519Verify k message sp'.signature = true := by
    obtain ⟨sp', hmem, hsigned⟩ := hv.signed k hk
    exact ⟨sp', List.mem_append_left _ hmem, hsigned⟩
  have split (k : BytesN 32) : k ∈ (seen ++ [sp]).map SignaturePair.publicKey ↔
      k ∈ seen.map SignaturePair.publicKey ∨ k = sp.publicKey := by simp
  rcases countSignature_cases h with ⟨rfl, hskip⟩ | ⟨hknown, hnew, hvalid, rfl⟩
  · constructor
    · exact hv.nodup
    · intro k
      rw [hv.mem_iff, split]
      constructor
      · rintro ⟨hk, hseen⟩
        exact ⟨hk, .inl hseen⟩
      · rintro ⟨hk, hseen | rfl⟩
        · exact ⟨hk, hseen⟩
        · exact ⟨hk, ((hv.mem_iff _).mp (hskip hk)).2⟩
    · exact earlier
  · constructor
    · apply List.nodup_append.mpr
      refine ⟨hv.nodup, List.nodup_singleton _, ?_⟩
      intro k hk k' hk' heq
      rw [List.mem_singleton] at hk'
      exact hnew (hk' ▸ heq ▸ hk)
    · intro k
      rw [List.mem_append, List.mem_singleton, hv.mem_iff, split]
      constructor
      · rintro (⟨hk, hseen⟩ | rfl)
        · exact ⟨hk, .inl hseen⟩
        · exact ⟨hknown, .inr rfl⟩
      · rintro ⟨hk, hseen | rfl⟩
        · exact .inl ⟨hk, hseen⟩
        · exact .inr rfl
    · intro k hk
      rcases List.mem_append.mp hk with hk | hk
      · exact earlier k hk
      · obtain rfl := List.mem_singleton.mp hk
        exact ⟨sp, by simp, rfl, hvalid⟩

theorem countSignatures_votes {signatures : List SignaturePair} {counted : List (BytesN 32)}
    (h : countSignatures host oracleKeys message signatures = .ok counted) :
    Votes host oracleKeys message signatures counted :=
  foldlM_invariant (P := Votes host oracleKeys message) ⟨.nil, by simp, by simp⟩
    (fun _ _ _ _ => countSignature_preserves_votes) h

theorem countSignatures_length {signatures : List SignaturePair} {counted : List (BytesN 32)}
    (h : countSignatures host oracleKeys message signatures = .ok counted) : counted.length =
      (oracleKeys.toFinset ∩ (signatures.map SignaturePair.publicKey).toFinset).card := by
  have hv := countSignatures_votes h
  rw [← List.toFinset_card_of_nodup hv.nodup]
  congr 1
  ext k
  rw [List.mem_toFinset, hv.mem_iff, Finset.mem_inter, List.mem_toFinset, List.mem_toFinset]

theorem countSignatures_skip {before after : List SignaturePair} {sp : SignaturePair}
    (h : sp.publicKey ∉ oracleKeys ∨ sp.publicKey ∈ before.map SignaturePair.publicKey) :
    countSignatures host oracleKeys message (before ++ sp :: after) =
      countSignatures host oracleKeys message (before ++ after) := by
  simp only [countSignatures, List.foldlM_append, List.foldlM_cons]
  cases hbefore : before.foldlM (countSignature host oracleKeys message) [] with
  | error e => rfl
  | ok counted =>
    have hskip : countSignature host oracleKeys message counted sp = .ok counted := by
      unfold countSignature
      by_cases hknown : sp.publicKey ∈ oracleKeys
      · have hmem := ((countSignatures_votes hbefore).mem_iff _).mpr
          ⟨hknown, h.resolve_left (not_not.mpr hknown)⟩
        rw [if_neg (not_not.mpr hknown), if_pos hmem]
        rfl
      · rw [if_pos hknown]
        rfl
    change (countSignature host oracleKeys message counted sp >>= _) = _
    rw [hskip]

theorem countSignatures_mono {signatures signatures' : List SignaturePair}
    {counted counted' : List (BytesN 32)}
    (h : countSignatures host oracleKeys message signatures = .ok counted)
    (h' : countSignatures host oracleKeys message signatures' = .ok counted')
    (hkeys : ∀ k ∈ oracleKeys, k ∈ signatures.map SignaturePair.publicKey →
      k ∈ signatures'.map SignaturePair.publicKey) : counted.length ≤ counted'.length := by
  rw [countSignatures_length h, countSignatures_length h']
  apply Finset.card_le_card
  intro k hk
  rw [Finset.mem_inter, List.mem_toFinset, List.mem_toFinset] at hk ⊢
  exact ⟨hk.1, hkeys k hk.1 hk.2⟩

end Count

/-- Enough distinct authorised signers of exactly this submission, which was forwarded. -/
structure BackedByQuorum (host : Host) (currentTime : UInt64) (s : Storage) (c : Submission)
    (signatures : List SignaturePair) (calls : List Invocation) : Prop where
  fresh : currentTime.toNat ≤ c.timestamp.toNat + 300
  quorum : ∃ threshold oracleKeys message, ∃ signers : List (BytesN 32),
    s.threshold = some threshold ∧
    s.oracleKeys = some oracleKeys ∧ buildCanonicalMessage host c = .ok message ∧
    signers.Nodup ∧ threshold.toNat ≤ signers.length ∧
    ∀ k ∈ signers, k ∈ oracleKeys ∧ ∃ sp ∈ signatures, sp.publicKey = k ∧
      host.ed25519Verify k message sp.signature = true
  forwarded : ∃ contract, s.scoreContract = some contract ∧
    calls = [forwarded host contract c] ∧ host.targetReturns (forwarded host contract c) = true

theorem stale_iff (currentTime timestamp : UInt64) :
    Stale currentTime timestamp ↔ timestamp.toNat + 300 < currentTime.toNat := by
  have hage : MAX_TIMESTAMP_AGE_SECS.toNat = 300 := rfl
  unfold Stale
  rw [UInt64.lt_iff_toNat_lt, UInt64.lt_iff_toNat_lt, hage]
  constructor
  · rintro ⟨hlt, hdiff⟩
    rw [UInt64.toNat_sub_of_le _ _ (UInt64.le_iff_toNat_le.mpr hlt.le)] at hdiff
    omega
  · intro h
    have hle : timestamp ≤ currentTime := UInt64.le_iff_toNat_le.mpr (by omega)
    rw [UInt64.toNat_sub_of_le _ _ hle]
    omega

theorem accepted_backed {host : Host} {currentTime : UInt64} {s : Storage} {c : Submission}
    {signatures : List SignaturePair} {calls : List Invocation}
    (h : submitWithQuorum host currentTime s c signatures = .ok (true, calls)) :
    BackedByQuorum host currentTime s c signatures calls := by
  unfold submitWithQuorum at h
  split_ifs at h with hstale
  · cases h
  cases hthreshold : s.threshold with
  | none => simp only [hthreshold, throw_not_ok] at h
  | some threshold =>
    cases hkeys : s.oracleKeys with
    | none => simp only [hthreshold, hkeys, throw_not_ok] at h
    | some oracleKeys =>
      simp only [hthreshold, hkeys] at h
      obtain ⟨message, hmessage, h⟩ := bind_eq_ok.mp h
      obtain ⟨counted, hcounted, h⟩ := bind_eq_ok.mp h
      have hv := countSignatures_votes hcounted
      split_ifs at h with hfew
      · cases h
      cases hcontract : s.scoreContract with
      | none => simp only [hcontract, throw_not_ok] at h
      | some contract =>
        simp only [hcontract] at h
        split_ifs at h with htarget
        obtain ⟨-, rfl⟩ := Prod.mk.inj (pure_eq_ok.mp h)
        exact {
          fresh := not_lt.mp (mt (stale_iff _ _).mpr hstale)
          quorum := ⟨threshold, oracleKeys, message, counted, hthreshold, hkeys, hmessage,
            hv.nodup, not_lt.mp hfew, fun k hk => ⟨((hv.mem_iff k).mp hk).1, hv.signed k hk⟩⟩
          forwarded := ⟨contract, hcontract, rfl, htarget⟩ }

/-- The quorum rule: an accepted submission is backed by a quorum, and no entry beyond the
first of an authorised key ever raises the count. -/
theorem quorum_sound (host : Host) (currentTime : UInt64) (s : Storage) (c : Submission)
    (signatures : List SignaturePair) :
    (∀ calls, submitWithQuorum host currentTime s c signatures = .ok (true, calls) →
      BackedByQuorum host currentTime s c signatures calls) ∧
    (∀ oracleKeys message before sp after,
      sp.publicKey ∉ oracleKeys ∨ sp.publicKey ∈ before.map SignaturePair.publicKey →
      countSignatures host oracleKeys message (before ++ sp :: after) =
        countSignatures host oracleKeys message (before ++ after)) ∧
    ∀ oracleKeys message signatures' counted counted',
      countSignatures host oracleKeys message signatures = .ok counted →
      countSignatures host oracleKeys message signatures' = .ok counted' →
      (∀ k ∈ oracleKeys, k ∈ signatures.map SignaturePair.publicKey →
        k ∈ signatures'.map SignaturePair.publicKey) →
      counted.length ≤ counted'.length :=
  ⟨fun _ h => accepted_backed h, fun _ _ _ _ _ => countSignatures_skip,
    fun _ _ _ _ _ => countSignatures_mono⟩

/-- Two keys reach a threshold of two, one key signing twice does not. -/
example :
    let host : Host := ⟨fun _ => .ofNat 32 0, fun _ _ _ => true, fun _ => [], ⟨"CAGGREGATOR"⟩,
      fun _ => true⟩
    let s : Storage :=
      ⟨some ⟨"GDEPLOYER"⟩, some 2, some [.ofNat 32 1, .ofNat 32 2], some ⟨"CSCORE"⟩⟩
    let c : Submission := ⟨⟨"GWALLET"⟩, ⟨"XLM"⟩, 80, true, false, 900, 90, 1⟩
    let run (k k' : ℕ) := submitWithQuorum host 1000 s c
      [⟨.ofNat 32 k, .ofNat 64 7⟩, ⟨.ofNat 32 k', .ofNat 64 8⟩]
    (run 1 2).map Prod.fst = .ok true ∧ (run 1 1).map Prod.fst = .ok false := by
  decide +kernel

theorem submit_eq_of_fresh {host : Host} {currentTime currentTime' : UInt64} {s : Storage}
    {c : Submission} {signatures : List SignaturePair}
    (h : currentTime.toNat ≤ c.timestamp.toNat + MAX_TIMESTAMP_AGE_SECS.toNat)
    (h' : currentTime'.toNat ≤ c.timestamp.toNat + MAX_TIMESTAMP_AGE_SECS.toNat) :
    submitWithQuorum host currentTime s c signatures =
      submitWithQuorum host currentTime' s c signatures := by
  have hage : MAX_TIMESTAMP_AGE_SECS.toNat = 300 := rfl
  have hfresh (t : UInt64) (ht : t.toNat ≤ c.timestamp.toNat + MAX_TIMESTAMP_AGE_SECS.toNat) :
      ¬ Stale t c.timestamp := by
    rw [stale_iff]
    omega
  rw [submitWithQuorum, submitWithQuorum, if_neg (hfresh _ h), if_neg (hfresh _ h')]

/-- A submission is accepted until the maximum age after its timestamp, and from its timestamp on
for no longer than that. What is accepted at one time is accepted at any other until then, however
far ahead of the ledger it is dated. -/
theorem accepted_until_max_age (c : Submission) :
    (∀ host currentTime s signatures calls,
      submitWithQuorum host currentTime s c signatures = .ok (true, calls) →
      currentTime.toNat ≤ c.timestamp.toNat + MAX_TIMESTAMP_AGE_SECS.toNat) ∧
    (∀ host currentTime currentTime' s signatures calls,
      submitWithQuorum host currentTime s c signatures = .ok (true, calls) →
      currentTime'.toNat ≤ c.timestamp.toNat + MAX_TIMESTAMP_AGE_SECS.toNat →
      submitWithQuorum host currentTime' s c signatures = .ok (true, calls)) ∧
    ∀ host host' currentTime currentTime' s s' signatures signatures' calls calls',
      submitWithQuorum host currentTime s c signatures = .ok (true, calls) →
      submitWithQuorum host' currentTime' s' c signatures' = .ok (true, calls') →
      c.timestamp ≤ currentTime → c.timestamp ≤ currentTime' →
      currentTime'.toNat - currentTime.toNat ≤ MAX_TIMESTAMP_AGE_SECS.toNat := by
  refine ⟨?_, ?_, ?_⟩
  · intro host currentTime s signatures calls h
    exact (accepted_backed h).fresh
  · intro host currentTime currentTime' s signatures calls h hfresh
    rw [← h]
    exact submit_eq_of_fresh hfresh (accepted_backed h).fresh
  · intro host host' currentTime currentTime' s s' signatures signatures' calls calls' _ h' hle _
    have hlast : currentTime'.toNat ≤ c.timestamp.toNat + 300 := (accepted_backed h').fresh
    have hage : MAX_TIMESTAMP_AGE_SECS.toNat = 300 := rfl
    rw [UInt64.le_iff_toNat_le] at hle
    omega

section

def singleOracle : Storage :=
  ⟨some ⟨"GDEPLOYER"⟩, some 1, some [.ofNat 32 1], some ⟨"CSCORE"⟩⟩

def lenientHost : Host :=
  ⟨fun _ => .ofNat 32 0, fun _ _ _ => true, fun _ => [], ⟨"CAGGREGATOR"⟩, fun _ => true⟩

def datedAt (timestamp : UInt64) : Submission :=
  ⟨⟨"GWALLET"⟩, ⟨"XLM"⟩, 80, true, false, timestamp, 90, 1⟩

theorem accepted_until_max_age_dated :
    (1300 : UInt64).toNat ≤ (datedAt 1000).timestamp.toNat + MAX_TIMESTAMP_AGE_SECS.toNat ∧
      submitWithQuorum lenientHost 7 singleOracle (datedAt 1000) [⟨.ofNat 32 1, .ofNat 64 7⟩] =
        .ok (true, [forwarded lenientHost ⟨"CSCORE"⟩ (datedAt 1000)]) ∧
      (1300 : UInt64).toNat - (1000 : UInt64).toNat ≤ MAX_TIMESTAMP_AGE_SECS.toNat := by
  have hearly : submitWithQuorum lenientHost 1000 singleOracle (datedAt 1000)
      [⟨.ofNat 32 1, .ofNat 64 7⟩] =
        .ok (true, [forwarded lenientHost ⟨"CSCORE"⟩ (datedAt 1000)]) := by decide +kernel
  have hlate : submitWithQuorum lenientHost 1300 singleOracle (datedAt 1000)
      [⟨.ofNat 32 1, .ofNat 64 7⟩] =
        .ok (true, [forwarded lenientHost ⟨"CSCORE"⟩ (datedAt 1000)]) := by decide +kernel
  exact ⟨(accepted_until_max_age (datedAt 1000)).1 _ _ _ _ _ hlate,
    (accepted_until_max_age (datedAt 1000)).2.1 _ _ _ _ _ _ hlate (by decide),
    (accepted_until_max_age (datedAt 1000)).2.2 _ _ _ _ _ _ _ _ _ _ hearly hlate (by decide)
      (by decide)⟩

/-- A message dated ahead is accepted more than the maximum age before its timestamp, and at two
times further apart than that. -/
theorem dated_ahead_accepted_twice : ∃ calls calls',
    submitWithQuorum lenientHost 1000 singleOracle (datedAt 6000)
        [⟨.ofNat 32 1, .ofNat 64 7⟩] = .ok (true, calls) ∧
      submitWithQuorum lenientHost 6300 singleOracle (datedAt 6000)
        [⟨.ofNat 32 1, .ofNat 64 7⟩] = .ok (true, calls') ∧
      MAX_TIMESTAMP_AGE_SECS.toNat < (6000 : UInt64).toNat - (1000 : UInt64).toNat ∧
      MAX_TIMESTAMP_AGE_SECS.toNat < (6300 : UInt64).toNat - (1000 : UInt64).toNat :=
  ⟨[forwarded lenientHost ⟨"CSCORE"⟩ (datedAt 6000)],
    [forwarded lenientHost ⟨"CSCORE"⟩ (datedAt 6000)], by decide +kernel⟩

end

section Quorum

variable {host : Host} {oracleKeys : List (BytesN 32)} {message : List UInt8}

theorem countSignatures_signers {signers : List (BytesN 32)} {sign : BytesN 32 → BytesN 64}
    (hnodup : signers.Nodup) (hknown : ∀ k ∈ signers, k ∈ oracleKeys)
    (hvalid : ∀ k ∈ signers, host.ed25519Verify k message (sign k) = true) :
    countSignatures host oracleKeys message (signers.map fun k => ⟨k, sign k⟩) =
      .ok signers := by
  induction signers using List.reverseRecOn with
  | nil => rfl
  | append_singleton signers k ih =>
    have hk : k ∈ signers ++ [k] := by simp
    have hnew : k ∉ signers := by
      intro hmem
      exact (List.nodup_append.mp hnodup).2.2 k hmem k (List.mem_singleton.mpr rfl) rfl
    have hbefore := ih (hnodup.sublist (List.sublist_append_left _ _))
      (fun k' hk' => hknown k' (List.mem_append_left _ hk'))
      (fun k' hk' => hvalid k' (List.mem_append_left _ hk'))
    rw [countSignatures] at hbefore ⊢
    rw [List.map_append, List.map_singleton, List.foldlM_append, hbefore]
    change [SignaturePair.mk k (sign k)].foldlM (countSignature host oracleKeys message) signers = _
    rw [List.foldlM_cons, countSignature, if_neg (not_not.mpr (hknown k hk)), if_neg hnew,
      if_neg (not_not.mpr (hvalid k hk))]
    rfl

/-- A signature vector can be counted up to `n` where `n` distinct authorised keys can sign. -/
theorem counted_up_to_iff (n : ℕ) :
    (∃ signatures counted, countSignatures host oracleKeys message signatures = .ok counted ∧
      n ≤ counted.length) ↔
    ∃ signers : Finset (BytesN 32), n ≤ signers.card ∧ ∀ k ∈ signers, k ∈ oracleKeys ∧
      ∃ signature, host.ed25519Verify k message signature = true := by
  constructor
  · rintro ⟨signatures, counted, hcounted, hn⟩
    have hv := countSignatures_votes hcounted
    refine ⟨counted.toFinset, (List.toFinset_card_of_nodup hv.nodup).symm ▸ hn, ?_⟩
    intro k hk
    have hk := List.mem_toFinset.mp hk
    obtain ⟨sp, -, -, hvalid⟩ := hv.signed k hk
    exact ⟨((hv.mem_iff k).mp hk).1, sp.signature, hvalid⟩
  · rintro ⟨signers, hn, hsigners⟩
    have hsign (k : BytesN 32) : ∃ signature, k ∈ signers →
        host.ed25519Verify k message signature = true := by
      by_cases hk : k ∈ signers
      · obtain ⟨signature, hvalid⟩ := (hsigners k hk).2
        exact ⟨signature, fun _ => hvalid⟩
      · exact ⟨.ofNat 64 0, fun hmem => absurd hmem hk⟩
    choose sign hsign using hsign
    refine ⟨signers.toList.map fun k => ⟨k, sign k⟩, _,
      countSignatures_signers signers.nodup_toList ?_ ?_, ?_⟩
    · exact fun k hk => (hsigners k (Finset.mem_toList.mp hk)).1
    · exact fun k hk => hsign k (Finset.mem_toList.mp hk)
    · rw [Finset.length_toList]
      exact hn

end Quorum

def KeysSign (host : Host) (oracleKeys : List (BytesN 32)) : Prop :=
  ∀ k ∈ oracleKeys, ∀ message, ∃ signature, host.ed25519Verify k message signature = true

/-- The threshold is positive, and some signature vector is counted up to it, whatever the
message. -/
def QuorumReachable (s : Storage) : Prop :=
  ∃ threshold oracleKeys, s.threshold = some threshold ∧ s.oracleKeys = some oracleKeys ∧
    1 ≤ threshold.toNat ∧ ∀ host, KeysSign host oracleKeys → ∀ message, ∃ signatures counted,
      countSignatures host oracleKeys message signatures = .ok counted ∧
      threshold.toNat ≤ counted.length

theorem QuorumReachable.le_card {threshold : UInt32} {oracleKeys : List (BytesN 32)} {s : Storage}
    (h : QuorumReachable s) (hthreshold : s.threshold = some threshold)
    (hkeys : s.oracleKeys = some oracleKeys) : threshold.toNat ≤ oracleKeys.toFinset.card := by
  obtain ⟨threshold', oracleKeys', hthreshold', hkeys', -, hreach⟩ := h
  obtain rfl := Option.some.inj (hthreshold.symm.trans hthreshold')
  obtain rfl := Option.some.inj (hkeys.symm.trans hkeys')
  obtain ⟨signatures, counted, hcounted, hle⟩ :=
    hreach lenientHost (fun _ _ _ => ⟨.ofNat 64 0, rfl⟩) []
  have hv := countSignatures_votes hcounted
  have hsub : counted.toFinset ⊆ oracleKeys.toFinset := by
    intro k hk
    exact List.mem_toFinset.mpr ((hv.mem_iff k).mp (List.mem_toFinset.mp hk)).1
  calc threshold.toNat ≤ counted.length := hle
    _ = counted.toFinset.card := (List.toFinset_card_of_nodup hv.nodup).symm
    _ ≤ oracleKeys.toFinset.card := Finset.card_le_card hsub

/-- The check on the length of the key vector is enough where no key is repeated too often. -/
theorem quorum_reachable_iff {auth : Address → Bool} {s t : Storage} {deployer : Address}
    {threshold : UInt32} {oracleKeys : List (BytesN 32)} {scoreContract : Address}
    (h : initializeContract auth s deployer threshold oracleKeys scoreContract = .ok t) :
    QuorumReachable t ↔ threshold.toNat ≤ oracleKeys.toFinset.card := by
  obtain ⟨-, h⟩ := guard_eq_ok.mp h
  obtain ⟨-, h⟩ := guard_eq_ok.mp h
  obtain ⟨hzero, h⟩ := guard_eq_ok.mp h
  obtain ⟨-, h⟩ := guard_eq_ok.mp h
  obtain rfl := pure_eq_ok.mp h
  constructor
  · intro hreach
    exact hreach.le_card rfl rfl
  · intro hle
    have hpos : threshold.toNat ≠ 0 := fun h0 => hzero (UInt32.toNat_inj.mp h0)
    refine ⟨threshold, oracleKeys, rfl, rfl, by omega, fun host hsign message => ?_⟩
    apply (counted_up_to_iff _).mpr
    refine ⟨oracleKeys.toFinset, hle, fun k hk => ?_⟩
    have hk := List.mem_toFinset.mp hk
    exact ⟨hk, hsign k hk message⟩

/-- Two of three keys. -/
theorem quorum_reachable_two_of_three :
    QuorumReachable ⟨some ⟨"GDEPLOYER"⟩, some 2,
      some [.ofNat 32 1, .ofNat 32 2, .ofNat 32 1], some ⟨"CSCORE"⟩⟩ := by
  have hinit : initializeContract (fun _ => true) ⟨none, none, none, none⟩ ⟨"GDEPLOYER"⟩ 2
      [.ofNat 32 1, .ofNat 32 2, .ofNat 32 1] ⟨"CSCORE"⟩ =
        .ok ⟨some ⟨"GDEPLOYER"⟩, some 2,
          some [.ofNat 32 1, .ofNat 32 2, .ofNat 32 1], some ⟨"CSCORE"⟩⟩ := by
    decide +kernel
  exact (quorum_reachable_iff hinit).mpr (by decide +kernel)

/-- One key given twice passes for two. -/
theorem repeated_key_unreachable : ∃ t : Storage,
    initializeContract (fun _ => true) ⟨none, none, none, none⟩ ⟨"GDEPLOYER"⟩ 2
      [.ofNat 32 1, .ofNat 32 1] ⟨"CSCORE"⟩ = .ok t ∧ ¬ QuorumReachable t := by
  refine ⟨⟨some ⟨"GDEPLOYER"⟩, some 2, some [.ofNat 32 1, .ofNat 32 1], some ⟨"CSCORE"⟩⟩,
    by decide +kernel, ?_⟩
  intro hreach
  exact absurd (hreach.le_card rfl rfl) (by decide +kernel)

end OracleAggregator
