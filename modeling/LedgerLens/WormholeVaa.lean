import LedgerLens.ByteStrings
import LedgerLens.FallibleRuns
import Mathlib.Data.Finset.Card
import Mathlib.Data.Fintype.Card

/-!
# Wormhole VAAs

`ingestion/wormhole_vaa.py`: the bytes of a VAA and the check of its guardian signatures. The
signatures come from whoever sent the VAA; that they are of distinct guardians follows from the
order that the check imposes on their indices.
-/
namespace WormholeVaa

open ByteStrings

def VAA_VERSION : ℕ := 1
def SIG_LEN : ℕ := 66
def BODY_MIN : ℕ := 51

structure GuardianSignature where
  guardianIndex : ℕ
  r : ℕ
  s : ℕ
  v : ℕ
  deriving DecidableEq

structure ParsedVaa where
  version : ℕ
  guardianSetIndex : ℕ
  signatures : List GuardianSignature
  body : List UInt8
  timestamp : ℕ
  nonce : ℕ
  emitterChain : ℕ
  emitterAddress : List UInt8
  sequence : ℕ
  consistencyLevel : ℕ
  payload : List UInt8
  deriving DecidableEq

structure GuardianSet where
  index : ℕ
  addresses : List (List UInt8)

def GuardianSet.quorum (guardianSet : GuardianSet) : ℕ := guardianSet.addresses.length * 2 / 3 + 1

/-- The texts of `VAAError`, with the values they show. -/
inductive VaaError where
  | tooShort (length : ℕ)
  | unsupportedVersion (version : ℕ)
  | truncated (length need numSigs : ℕ)
  | noGuardianSet
  | otherGuardianSet (signed current : ℕ)
  | insufficientSignatures (length quorum : ℕ)
  | notAscending
  | unknownGuardian (index : ℕ)
  | invalidRecoveryId (v : ℕ)
  | recoveryFailed (index : ℕ)
  | invalidSignature (index : ℕ)
  deriving DecidableEq

/-- `int.from_bytes(raw[offset:offset + n], "big")`. -/
def readInt (n : ℕ) (raw : List UInt8) (offset : ℕ) : ℕ := ofBigEndian ((raw.drop offset).take n)

def readSignature (raw : List UInt8) (offset : ℕ) : GuardianSignature where
  guardianIndex := readInt 1 raw offset
  r := readInt 32 raw (offset + 1)
  s := readInt 32 raw (offset + 33)
  v := readInt 1 raw (offset + 65)

def parseVaa (raw : List UInt8) : Except VaaError ParsedVaa :=
  if raw.length < 6 then .error (.tooShort raw.length)
  else
    let version := readInt 1 raw 0
    if version ≠ VAA_VERSION then .error (.unsupportedVersion version)
    else
      let numSigs := readInt 1 raw 5
      let bodyStart := 6 + SIG_LEN * numSigs
      if raw.length < bodyStart + BODY_MIN then
        .error (.truncated raw.length (bodyStart + BODY_MIN) numSigs)
      else
        let body := raw.drop bodyStart
        .ok
          { version
            guardianSetIndex := readInt 4 raw 1
            signatures := (List.range numSigs).map fun i => readSignature raw (6 + SIG_LEN * i)
            body
            timestamp := readInt 4 body 0
            nonce := readInt 4 body 4
            emitterChain := readInt 2 body 8
            emitterAddress := (body.drop 10).take 32
            sequence := readInt 8 body 42
            consistencyLevel := readInt 1 body 50
            payload := body.drop 51 }

/-- `eth_utils.keccak`, and `ecdsa_raw_recover` of `py_ecc` with its `(v, r, s)`, absent where it
raises. -/
structure Cryptography where
  keccak : List UInt8 → List UInt8
  ecdsaRawRecover : List UInt8 → ℕ × ℕ × ℕ → Option (ℕ × ℕ)

section

variable (crypto : Cryptography)

def vaaDigest (body : List UInt8) : List UInt8 := crypto.keccak (crypto.keccak body)

/-- `data[-20:]`. -/
def lastTwenty (data : List UInt8) : List UInt8 := data.drop (data.length - 20)

def recoverGuardianAddress (digest : List UInt8) (sig : GuardianSignature) :
    Except VaaError (List UInt8) :=
  if sig.v ≠ 0 ∧ sig.v ≠ 1 then .error (.invalidRecoveryId sig.v)
  else
    match crypto.ecdsaRawRecover digest (sig.v + 27, sig.r, sig.s) with
    | none => .error (.recoveryFailed sig.guardianIndex)
    | some (x, y) => .ok (lastTwenty (crypto.keccak (toBigEndian 32 x ++ toBigEndian 32 y)))

/-- The loop over the signatures, after one with index `lastIndex`. -/
def verifySignatures (guardianSet : GuardianSet) (digest : List UInt8) :
    ℤ → List GuardianSignature → Except VaaError Unit
  | _, [] => .ok ()
  | lastIndex, sig :: sigs =>
    if (sig.guardianIndex : ℤ) ≤ lastIndex then .error .notAscending
    else
      match guardianSet.addresses[sig.guardianIndex]? with
      | none => .error (.unknownGuardian sig.guardianIndex)
      | some address =>
        match recoverGuardianAddress crypto digest sig with
        | .error e => .error e
        | .ok recovered =>
          if recovered ≠ address then .error (.invalidSignature sig.guardianIndex)
          else verifySignatures guardianSet digest sig.guardianIndex sigs

def verifyVaa (vaa : ParsedVaa) (guardianSet : Option GuardianSet) : Except VaaError Unit :=
  match guardianSet with
  | none => .error .noGuardianSet
  | some guardianSet =>
    if guardianSet.addresses.length = 0 then .error .noGuardianSet
    else if vaa.guardianSetIndex ≠ guardianSet.index then
      .error (.otherGuardianSet vaa.guardianSetIndex guardianSet.index)
    else if vaa.signatures.length < guardianSet.quorum then
      .error (.insufficientSignatures vaa.signatures.length guardianSet.quorum)
    else verifySignatures crypto guardianSet (vaaDigest crypto vaa.body) (-1) vaa.signatures

def Signs (guardianSet : GuardianSet) (digest : List UInt8) (sig : GuardianSignature) : Prop :=
  ∃ address, guardianSet.addresses[sig.guardianIndex]? = some address ∧
    recoverGuardianAddress crypto digest sig = .ok address

instance (guardianSet : GuardianSet) (digest : List UInt8) (sig : GuardianSignature) :
    Decidable (Signs crypto guardianSet digest sig) :=
  match haddress : guardianSet.addresses[sig.guardianIndex]? with
  | none => isFalse fun ⟨_, h, _⟩ => Option.some_ne_none _ (h.symm.trans haddress)
  | some address => decidable_of_iff (recoverGuardianAddress crypto digest sig = .ok address)
      ⟨fun h => ⟨address, haddress, h⟩, fun ⟨_, h, hrecover⟩ =>
        Option.some.inj (haddress.symm.trans h) ▸ hrecover⟩

def signingGuardians (guardianSet : GuardianSet) (vaa : ParsedVaa) :
    Finset (Fin guardianSet.addresses.length) :=
  Finset.univ.filter fun i => ∃ sig ∈ vaa.signatures,
    sig.guardianIndex = i ∧ Signs crypto guardianSet (vaaDigest crypto vaa.body) sig

end

section

variable {crypto : Cryptography} {guardianSet : GuardianSet} {digest : List UInt8}

/-- The order check makes the indices distinct, whatever list is sent. -/
theorem verifySignatures_ok_iff {sigs : List GuardianSignature} {lastIndex : ℤ} :
    verifySignatures crypto guardianSet digest lastIndex sigs = .ok () ↔
      (∀ sig ∈ sigs, lastIndex < sig.guardianIndex ∧ Signs crypto guardianSet digest sig) ∧
        sigs.Pairwise fun a b => a.guardianIndex < b.guardianIndex := by
  induction sigs generalizing lastIndex with
  | nil => simp [verifySignatures]
  | cons sig sigs ih =>
    have hhead : verifySignatures crypto guardianSet digest lastIndex (sig :: sigs) = .ok () ↔
        (lastIndex < sig.guardianIndex ∧ Signs crypto guardianSet digest sig) ∧
          verifySignatures crypto guardianSet digest sig.guardianIndex sigs = .ok () := by
      rw [verifySignatures]
      by_cases horder : (sig.guardianIndex : ℤ) ≤ lastIndex
      · simp [horder, not_lt.mpr horder]
      · rw [if_neg horder]
        unfold Signs
        cases haddress : guardianSet.addresses[sig.guardianIndex]? with
        | none => simp
        | some address =>
          cases hrecover : recoverGuardianAddress crypto digest sig with
          | error e => simp
          | ok recovered =>
            by_cases hsame : recovered = address
            · simp [hsame, not_le.mp horder]
            · simp [hsame]
    rw [hhead, ih, List.forall_mem_cons, List.pairwise_cons]
    constructor
    · rintro ⟨⟨hlast, hsigns⟩, hall, hpairwise⟩
      refine ⟨⟨⟨hlast, hsigns⟩, fun s hs => ?_⟩, fun s hs => ?_, hpairwise⟩
      · exact ⟨hlast.trans (hall s hs).1, (hall s hs).2⟩
      · exact Int.ofNat_lt.mp (hall s hs).1
    · rintro ⟨⟨hfirst, hall⟩, hless, hpairwise⟩
      exact ⟨hfirst, fun s hs => ⟨Int.ofNat_lt.mpr (hless s hs), (hall s hs).2⟩, hpairwise⟩

theorem verifyVaa_ok_iff {vaa : ParsedVaa} :
    verifyVaa crypto vaa (some guardianSet) = .ok () ↔
      guardianSet.addresses.length ≠ 0 ∧ vaa.guardianSetIndex = guardianSet.index ∧
        guardianSet.quorum ≤ vaa.signatures.length ∧
        verifySignatures crypto guardianSet (vaaDigest crypto vaa.body) (-1) vaa.signatures =
          .ok () := by
  simp only [verifyVaa]
  split_ifs with hempty hindex hfew
  · simp [hempty]
  · simp [hindex]
  · simp [not_le.mpr hfew]
  · simp [hempty, not_not.mp hindex, not_lt.mp hfew]

theorem length_le_card_signingGuardians {vaa : ParsedVaa}
    (h : verifyVaa crypto vaa (some guardianSet) = .ok ()) :
    vaa.signatures.length ≤ (signingGuardians crypto guardianSet vaa).card := by
  obtain ⟨-, -, -, hsignatures⟩ := verifyVaa_ok_iff.mp h
  obtain ⟨hall, hpairwise⟩ := verifySignatures_ok_iff.mp hsignatures
  have hnodup : (vaa.signatures.map GuardianSignature.guardianIndex).Nodup :=
    List.pairwise_map.mpr (hpairwise.imp fun hlt => Nat.ne_of_lt hlt)
  have hsub : (vaa.signatures.map GuardianSignature.guardianIndex).toFinset ⊆
      (signingGuardians crypto guardianSet vaa).map Fin.valEmbedding := by
    intro i hi
    obtain ⟨sig, hsig, rfl⟩ := List.mem_map.mp (List.mem_toFinset.mp hi)
    obtain ⟨address, haddress, hrecover⟩ := (hall sig hsig).2
    obtain ⟨hlt, -⟩ := List.getElem?_eq_some_iff.mp haddress
    refine Finset.mem_map.mpr ⟨⟨sig.guardianIndex, hlt⟩, ?_, rfl⟩
    exact Finset.mem_filter.mpr ⟨Finset.mem_univ _, sig, hsig, rfl, address, haddress, hrecover⟩
  calc vaa.signatures.length
      = (vaa.signatures.map GuardianSignature.guardianIndex).toFinset.card := by
        rw [List.toFinset_card_of_nodup hnodup, List.length_map]
    _ ≤ ((signingGuardians crypto guardianSet vaa).map Fin.valEmbedding).card :=
        Finset.card_le_card hsub
    _ = (signingGuardians crypto guardianSet vaa).card := Finset.card_map _

theorem third_lt_overlap {n : ℕ} {s t : Finset (Fin n)} (hs : n * 2 / 3 + 1 ≤ s.card)
    (ht : n * 2 / 3 + 1 ≤ t.card) : n < 3 * (s ∩ t).card := by
  have hunion : (s ∪ t).card ≤ n := (Finset.card_le_univ _).trans_eq (Fintype.card_fin n)
  have hcount := Finset.card_union_add_card_inter s t
  omega

end

theorem guardian_quorum (crypto : Cryptography) (guardianSet : GuardianSet) :
    (∀ vaa, verifyVaa crypto vaa (some guardianSet) = .ok () →
      vaa.guardianSetIndex = guardianSet.index ∧ guardianSet.addresses.length * 2 / 3 + 1 ≤
        (signingGuardians crypto guardianSet vaa).card) ∧
    ∀ vaa vaa', verifyVaa crypto vaa (some guardianSet) = .ok () →
      verifyVaa crypto vaa' (some guardianSet) = .ok () →
      guardianSet.addresses.length < 3 * (signingGuardians crypto guardianSet vaa ∩
        signingGuardians crypto guardianSet vaa').card := by
  have hquorum : ∀ vaa, verifyVaa crypto vaa (some guardianSet) = .ok () →
      guardianSet.addresses.length * 2 / 3 + 1 ≤
        (signingGuardians crypto guardianSet vaa).card := by
    intro vaa h
    obtain ⟨-, -, hlength, -⟩ := verifyVaa_ok_iff.mp h
    exact hlength.trans (length_le_card_signingGuardians h)
  constructor
  · intro vaa h
    exact ⟨(verifyVaa_ok_iff.mp h).2.1, hquorum vaa h⟩
  · intro vaa vaa' h h'
    exact third_lt_overlap (hquorum vaa h) (hquorum vaa' h')

def loneBody : List UInt8 := List.replicate 51 0

def loneDigest : List UInt8 :=
  toBigEndian 32 0x73bc5757dee0a4496aee19cc3524b4437aec39481e17d009f0fe3dc381527e97

def loneR : ℕ := 0x544e77a4dbfad982648d8e4c293bc8bb5185e04417b4b073d7155c4ee55a1350
def loneS : ℕ := 0x2d2865ecbeb1d5199aac0acbeb3a5e7971cd2b7e1b30756d1c0ef0b86dc1e8de
def loneX : ℕ := 0x1b84c5567b126440995d3ed5aaba0565d71e1834604819ff9c17f5e9d5dd078f
def loneY : ℕ := 0x70beaf8f588b541507fed6a642c5ab42dfdf8120a7f639de5122d47a69a8e8d1

def loneCryptography : Cryptography where
  keccak data :=
    if data = loneBody then
      toBigEndian 32 0xe168b55b543959bfc9a1ba0d6f846406e9c5078c9f20fb49488e72c3781df761
    else if data = toBigEndian 32 loneX ++ toBigEndian 32 loneY then
      toBigEndian 32 0xb8a0722ae6cb48cde0b4ae1f1a642f0e3c3af545e7acbd38b07251b3990914f1
    else loneDigest
  ecdsaRawRecover digest sig :=
    if digest = loneDigest ∧ sig = (27, loneR, loneS) then some (loneX, loneY) else none

def loneGuardian : GuardianSet :=
  ⟨0, [toBigEndian 20 0x1a642f0e3c3af545e7acbd38b07251b3990914f1]⟩

def loneVaa : List UInt8 :=
  [1, 0, 0, 0, 0, 1, 0] ++ toBigEndian 32 loneR ++ toBigEndian 32 loneS ++ [0] ++ loneBody

theorem guardian_quorum_lone : ∃ vaa, parseVaa loneVaa = .ok vaa ∧
    verifyVaa loneCryptography vaa (some loneGuardian) = .ok () ∧
    vaa.guardianSetIndex = 0 ∧ 1 ≤ (signingGuardians loneCryptography loneGuardian vaa).card ∧
    1 < 3 * (signingGuardians loneCryptography loneGuardian vaa ∩
      signingGuardians loneCryptography loneGuardian vaa).card := by
  have hparsed : (parseVaa loneVaa).toOption.any (fun vaa =>
      decide (verifyVaa loneCryptography vaa (some loneGuardian) = .ok ())) = true := by
    decide +kernel
  cases hvaa : parseVaa loneVaa with
  | error e =>
    rw [hvaa] at hparsed
    cases hparsed
  | ok vaa =>
    rw [hvaa] at hparsed
    have hverified : verifyVaa loneCryptography vaa (some loneGuardian) = .ok () :=
      of_decide_eq_true hparsed
    have hquorum := guardian_quorum loneCryptography loneGuardian
    exact ⟨vaa, rfl, hverified, (hquorum.1 vaa hverified).1, (hquorum.1 vaa hverified).2,
      hquorum.2 vaa vaa hverified hverified⟩

end WormholeVaa
