import LedgerLens.WormholeVaa

/-!
# The layout of VAAs

`parse_vaa` of `ingestion/wormhole_vaa.py` with every read that could raise, and the layout of the
module's docstring as an encoder. What is parsed is exactly what the encoder writes.
-/
namespace VaaLayout

open ByteStrings FallibleRuns WormholeVaa

inductive Raised where
  | vaaError (error : VaaError)
  | indexError
  | structError
  deriving DecidableEq

/-- `raw[offset]`. -/
def byteAt (raw : List UInt8) (offset : ℕ) : Except Raised ℕ :=
  match raw[offset]? with
  | none => throw .indexError
  | some b => pure b.toNat

/-- One unsigned field of `struct.unpack_from`. -/
def unpackFrom (n : ℕ) (raw : List UInt8) (offset : ℕ) : Except Raised ℕ :=
  if raw.length < offset + n then throw .structError else pure (readInt n raw offset)

/-- Slices never raise; `int.from_bytes` reads the two numbers from slices. -/
def signatureAt (raw : List UInt8) (offset : ℕ) : Except Raised GuardianSignature := do
  let guardianIndex ← byteAt raw offset
  let r := readInt 32 raw (offset + 1)
  let s := readInt 32 raw (offset + 33)
  let v ← byteAt raw (offset + 65)
  return { guardianIndex, r, s, v }

def parseVaaRaising (raw : List UInt8) : Except Raised ParsedVaa :=
  if raw.length < 6 then throw (.vaaError (.tooShort raw.length))
  else do
    let version ← byteAt raw 0
    if version ≠ VAA_VERSION then throw (.vaaError (.unsupportedVersion version))
    else
      let guardianSetIndex ← unpackFrom 4 raw 1
      let numSigs ← byteAt raw 5
      let bodyStart := 6 + SIG_LEN * numSigs
      if raw.length < bodyStart + BODY_MIN then
        throw (.vaaError (.truncated raw.length (bodyStart + BODY_MIN) numSigs))
      else
        let signatures ← (List.range numSigs).mapM fun i => signatureAt raw (6 + SIG_LEN * i)
        let body := raw.drop bodyStart
        let timestamp ← unpackFrom 4 body 0
        let nonce ← unpackFrom 4 body 4
        let emitterChain ← unpackFrom 2 body 8
        let sequence ← unpackFrom 8 body 42
        let consistencyLevel ← unpackFrom 1 body 50
        return {
          version
          guardianSetIndex
          signatures
          body
          timestamp
          nonce
          emitterChain
          emitterAddress := (body.drop 10).take 32
          sequence
          consistencyLevel
          payload := body.drop 51 }

theorem byteAt_ok {raw : List UInt8} {offset : ℕ} (h : offset < raw.length) :
    byteAt raw offset = .ok (readInt 1 raw offset) := by
  rw [byteAt, List.getElem?_eq_getElem h, readInt, List.drop_eq_getElem_cons h, List.take_succ_cons,
    List.take_zero]
  simp [ofBigEndian, pure, Except.pure]

theorem unpackFrom_ok {n : ℕ} {raw : List UInt8} {offset : ℕ} (h : offset + n ≤ raw.length) :
    unpackFrom n raw offset = .ok (readInt n raw offset) :=
  if_neg (not_lt.mpr h)

theorem signatureAt_ok {raw : List UInt8} {offset : ℕ} (h : offset + SIG_LEN ≤ raw.length) :
    signatureAt raw offset = .ok (readSignature raw offset) := by
  have hlen : SIG_LEN = 66 := rfl
  rw [signatureAt, byteAt_ok (by omega), byteAt_ok (by omega)]
  rfl

theorem signatures_ok {raw : List UInt8} {n : ℕ} (h : 6 + SIG_LEN * n ≤ raw.length) :
    ((List.range n).mapM fun i => signatureAt raw (6 + SIG_LEN * i)) =
      .ok ((List.range n).map fun i => readSignature raw (6 + SIG_LEN * i)) := by
  rw [mapM_eq_ok, List.forall₂_map_right_iff, List.forall₂_same]
  intro i hi
  have hlast : SIG_LEN * (i + 1) ≤ SIG_LEN * n :=
    Nat.mul_le_mul_left _ (List.mem_range.mp hi)
  rw [Nat.mul_succ] at hlast
  exact signatureAt_ok (by omega)

/-- The two length checks come before every read that needs them. -/
theorem parseVaaRaising_eq (raw : List UInt8) :
    parseVaaRaising raw = (parseVaa raw).mapError .vaaError := by
  rw [parseVaaRaising, parseVaa]
  by_cases hshort : raw.length < 6
  · rw [if_pos hshort, if_pos hshort]
    rfl
  rw [if_neg hshort, if_neg hshort, byteAt_ok (by omega)]
  simp only [bind, Except.bind]
  by_cases hversion : readInt 1 raw 0 ≠ VAA_VERSION
  · rw [if_pos hversion, if_pos hversion]
    rfl
  rw [if_neg hversion, if_neg hversion, unpackFrom_ok (by omega), byteAt_ok (by omega)]
  simp only
  by_cases htruncated : raw.length < 6 + SIG_LEN * readInt 1 raw 5 + BODY_MIN
  · rw [if_pos htruncated, if_pos htruncated]
    rfl
  have hbody : BODY_MIN ≤ (raw.drop (6 + SIG_LEN * readInt 1 raw 5)).length := by
    rw [List.length_drop]
    omega
  have hmin : BODY_MIN = 51 := rfl
  rw [if_neg htruncated, if_neg htruncated, signatures_ok (by omega)]
  simp only
  rw [unpackFrom_ok (by omega), unpackFrom_ok (by omega), unpackFrom_ok (by omega),
    unpackFrom_ok (by omega), unpackFrom_ok (by omega)]
  rfl

def encodeSignature (sig : GuardianSignature) : List UInt8 :=
  toBigEndian 1 sig.guardianIndex ++ (toBigEndian 32 sig.r ++ (toBigEndian 32 sig.s ++
    toBigEndian 1 sig.v))

def encodeBody (vaa : ParsedVaa) : List UInt8 :=
  toBigEndian 4 vaa.timestamp ++ (toBigEndian 4 vaa.nonce ++ (toBigEndian 2 vaa.emitterChain ++
    (vaa.emitterAddress ++ (toBigEndian 8 vaa.sequence ++
      (toBigEndian 1 vaa.consistencyLevel ++ vaa.payload)))))

def encodeVaa (vaa : ParsedVaa) : List UInt8 :=
  toBigEndian 1 vaa.version ++ (toBigEndian 4 vaa.guardianSetIndex ++
    (toBigEndian 1 vaa.signatures.length ++ (vaa.signatures.flatMap encodeSignature ++
      encodeBody vaa)))

structure SignatureFits (sig : GuardianSignature) : Prop where
  guardianIndex : sig.guardianIndex < 256 ^ 1
  r : sig.r < 256 ^ 32
  s : sig.s < 256 ^ 32
  v : sig.v < 256 ^ 1

/-- A version-1 VAA whose fields fit their places; `body` is what is signed. -/
structure WellFormed (vaa : ParsedVaa) : Prop where
  version : vaa.version = VAA_VERSION
  guardianSetIndex : vaa.guardianSetIndex < 256 ^ 4
  numSigs : vaa.signatures.length < 256 ^ 1
  signatures : ∀ sig ∈ vaa.signatures, SignatureFits sig
  body : vaa.body = encodeBody vaa
  timestamp : vaa.timestamp < 256 ^ 4
  nonce : vaa.nonce < 256 ^ 4
  emitterChain : vaa.emitterChain < 256 ^ 2
  emitterAddress : vaa.emitterAddress.length = 32
  sequence : vaa.sequence < 256 ^ 8
  consistencyLevel : vaa.consistencyLevel < 256 ^ 1

@[simp] theorem length_encodeSignature (sig : GuardianSignature) :
    (encodeSignature sig).length = SIG_LEN := by
  simp [encodeSignature, SIG_LEN]

theorem readInt_lt (n : ℕ) (raw : List UInt8) (offset : ℕ) : readInt n raw offset < 256 ^ n := by
  refine lt_of_lt_of_le (ofBigEndian_lt _) (Nat.pow_le_pow_right (by decide) ?_)
  rw [List.length_take]
  omega

theorem toBigEndian_readInt {n : ℕ} {raw : List UInt8} {offset : ℕ}
    (h : offset + n ≤ raw.length) :
    toBigEndian n (readInt n raw offset) = (raw.drop offset).take n := by
  have hlength : ((raw.drop offset).take n).length = n := by
    rw [List.length_take, List.length_drop]
    omega
  have hback := toBigEndian_ofBigEndian ((raw.drop offset).take n)
  rwa [hlength] at hback

theorem readInt_write {n v : ℕ} (rest : List UInt8) (h : v < 256 ^ n) :
    readInt n (toBigEndian n v ++ rest) 0 = v := by
  rw [readInt, List.drop_zero, List.take_left' (length_toBigEndian n v),
    ofBigEndian_toBigEndian n v h]

theorem readInt_append {n : ℕ} {before : List UInt8} (rest : List UInt8) {offset : ℕ}
    (h : before.length ≤ offset) :
    readInt n (before ++ rest) offset = readInt n rest (offset - before.length) := by
  rw [readInt, readInt, List.drop_append, List.drop_eq_nil_of_le h, List.nil_append]

theorem readSignature_append {before : List UInt8} (rest : List UInt8) {offset : ℕ}
    (h : before.length ≤ offset) :
    readSignature (before ++ rest) offset = readSignature rest (offset - before.length) := by
  rw [readSignature, readSignature, readInt_append rest h, readInt_append rest (by omega),
    readInt_append rest (by omega), readInt_append rest (by omega)]
  congr 2
  all_goals omega

theorem readSignature_write {sig : GuardianSignature} (rest : List UInt8) (h : SignatureFits sig) :
    readSignature (encodeSignature sig ++ rest) 0 = sig := by
  have hr : readInt 32 (encodeSignature sig ++ rest) 1 = sig.r := by
    rw [encodeSignature, List.append_assoc, readInt_append _ (by simp), length_toBigEndian,
      Nat.sub_self, List.append_assoc]
    exact readInt_write _ h.r
  have hs : readInt 32 (encodeSignature sig ++ rest) 33 = sig.s := by
    rw [encodeSignature, List.append_assoc, readInt_append _ (by simp), List.append_assoc,
      readInt_append _ (by simp), List.append_assoc]
    simpa using readInt_write _ h.s
  have hv : readInt 1 (encodeSignature sig ++ rest) 65 = sig.v := by
    rw [encodeSignature, List.append_assoc, readInt_append _ (by simp), List.append_assoc,
      readInt_append _ (by simp), List.append_assoc, readInt_append _ (by simp)]
    simpa using readInt_write _ h.v
  have hindex : readInt 1 (encodeSignature sig ++ rest) 0 = sig.guardianIndex := by
    rw [encodeSignature, List.append_assoc]
    exact readInt_write _ h.guardianIndex
  rw [readSignature, hr, hs, hv, hindex]

theorem readSignatures_write {sigs : List GuardianSignature} (rest : List UInt8)
    (h : ∀ sig ∈ sigs, SignatureFits sig) :
    ((List.range sigs.length).map fun i =>
      readSignature (sigs.flatMap encodeSignature ++ rest) (SIG_LEN * i)) = sigs := by
  induction sigs with
  | nil => rfl
  | cons sig sigs ih =>
    have hlater := ih fun sig' hsig' => h sig' (List.mem_cons_of_mem _ hsig')
    have hhead : readSignature ((sig :: sigs).flatMap encodeSignature ++ rest) (SIG_LEN * 0) =
        sig := by
      rw [List.flatMap_cons, List.append_assoc]
      exact readSignature_write _ (h sig List.mem_cons_self)
    have hnext (i : ℕ) :
        readSignature ((sig :: sigs).flatMap encodeSignature ++ rest) (SIG_LEN * (i + 1)) =
          readSignature (sigs.flatMap encodeSignature ++ rest) (SIG_LEN * i) := by
      have hle : (encodeSignature sig).length ≤ SIG_LEN * (i + 1) := by
        rw [length_encodeSignature, Nat.mul_succ]
        omega
      rw [List.flatMap_cons, List.append_assoc, readSignature_append _ hle, length_encodeSignature,
        Nat.mul_succ, Nat.add_sub_cancel]
    rw [List.length_cons, List.range_succ_eq_map, List.map_cons, List.map_map, hhead]
    exact congrArg (sig :: ·) ((List.map_congr_left fun i _ => hnext i).trans hlater)

theorem length_flatMap_encodeSignature (sigs : List GuardianSignature) :
    (sigs.flatMap encodeSignature).length = SIG_LEN * sigs.length := by
  induction sigs with
  | nil => rfl
  | cons sig sigs ih =>
    rw [List.flatMap_cons, List.length_append, ih, length_encodeSignature, List.length_cons,
      Nat.mul_succ, Nat.add_comm]

theorem length_encodeBody {vaa : ParsedVaa} (h : WellFormed vaa) :
    (encodeBody vaa).length = BODY_MIN + vaa.payload.length := by
  simp only [encodeBody, List.length_append, length_toBigEndian, h.emitterAddress, BODY_MIN]
  omega

theorem drop_encodeVaa (vaa : ParsedVaa) (n : ℕ) :
    (encodeVaa vaa).drop (6 + n) =
      (vaa.signatures.flatMap encodeSignature ++ encodeBody vaa).drop n := by
  rw [encodeVaa, ← List.append_assoc, ← List.append_assoc, ← List.drop_drop]
  congr 1

theorem body_encodeVaa (vaa : ParsedVaa) :
    (encodeVaa vaa).drop (6 + SIG_LEN * vaa.signatures.length) = encodeBody vaa := by
  rw [drop_encodeVaa]
  exact List.drop_left' (length_flatMap_encodeSignature _)

theorem readInt_drop (n : ℕ) (raw : List UInt8) (i j : ℕ) :
    readInt n raw (i + j) = readInt n (raw.drop i) j := by
  rw [readInt, readInt, List.drop_drop]

theorem readSignature_drop (raw : List UInt8) (i j : ℕ) :
    readSignature raw (i + j) = readSignature (raw.drop i) j := by
  simp only [readSignature, Nat.add_assoc, readInt_drop]

theorem signatures_encodeVaa {vaa : ParsedVaa} (h : WellFormed vaa) :
    ((List.range vaa.signatures.length).map fun i =>
      readSignature (encodeVaa vaa) (6 + SIG_LEN * i)) = vaa.signatures := by
  have hdrop := drop_encodeVaa vaa 0
  rw [List.drop_zero] at hdrop
  simp only [readSignature_drop, hdrop]
  exact readSignatures_write _ h.signatures

theorem fields_encodeBody {vaa : ParsedVaa} (h : WellFormed vaa) :
    readInt 4 (encodeBody vaa) 0 = vaa.timestamp ∧ readInt 4 (encodeBody vaa) 4 = vaa.nonce ∧
      readInt 2 (encodeBody vaa) 8 = vaa.emitterChain ∧
      ((encodeBody vaa).drop 10).take 32 = vaa.emitterAddress ∧
      readInt 8 (encodeBody vaa) 42 = vaa.sequence ∧
      readInt 1 (encodeBody vaa) 50 = vaa.consistencyLevel ∧
      (encodeBody vaa).drop 51 = vaa.payload := by
  have hnonce : (encodeBody vaa).drop 4 = toBigEndian 4 vaa.nonce ++ (toBigEndian 2 vaa.emitterChain
      ++ (vaa.emitterAddress ++ (toBigEndian 8 vaa.sequence ++
        (toBigEndian 1 vaa.consistencyLevel ++ vaa.payload)))) :=
    List.drop_left' (length_toBigEndian 4 _)
  have hchain : (encodeBody vaa).drop 8 = toBigEndian 2 vaa.emitterChain ++ (vaa.emitterAddress ++
      (toBigEndian 8 vaa.sequence ++ (toBigEndian 1 vaa.consistencyLevel ++ vaa.payload))) := by
    rw [← List.drop_drop (i := 4) (j := 4), hnonce]
    exact List.drop_left' (length_toBigEndian 4 _)
  have haddress : (encodeBody vaa).drop 10 = vaa.emitterAddress ++ (toBigEndian 8 vaa.sequence ++
      (toBigEndian 1 vaa.consistencyLevel ++ vaa.payload)) := by
    rw [← List.drop_drop (i := 2) (j := 8), hchain]
    exact List.drop_left' (length_toBigEndian 2 _)
  have hsequence : (encodeBody vaa).drop 42 = toBigEndian 8 vaa.sequence ++
      (toBigEndian 1 vaa.consistencyLevel ++ vaa.payload) := by
    rw [← List.drop_drop (i := 32) (j := 10), haddress]
    exact List.drop_left' h.emitterAddress
  have hlevel : (encodeBody vaa).drop 50 = toBigEndian 1 vaa.consistencyLevel ++ vaa.payload := by
    rw [← List.drop_drop (i := 8) (j := 42), hsequence]
    exact List.drop_left' (length_toBigEndian 8 _)
  refine ⟨readInt_write _ h.timestamp, ?_, ?_, ?_, ?_, ?_, ?_⟩
  · rw [← Nat.add_zero 4, readInt_drop, hnonce]
    exact readInt_write _ h.nonce
  · rw [← Nat.add_zero 8, readInt_drop, hchain]
    exact readInt_write _ h.emitterChain
  · rw [haddress]
    exact List.take_left' h.emitterAddress
  · rw [← Nat.add_zero 42, readInt_drop, hsequence]
    exact readInt_write _ h.sequence
  · rw [← Nat.add_zero 50, readInt_drop, hlevel]
    exact readInt_write _ h.consistencyLevel
  · rw [← List.drop_drop (i := 1) (j := 50), hlevel]
    exact List.drop_left' (length_toBigEndian 1 _)

theorem parseVaa_encodeVaa {vaa : ParsedVaa} (h : WellFormed vaa) :
    parseVaa (encodeVaa vaa) = .ok vaa := by
  have hlength : (encodeVaa vaa).length =
      6 + SIG_LEN * vaa.signatures.length + BODY_MIN + vaa.payload.length := by
    rw [encodeVaa]
    simp only [List.length_append, length_toBigEndian, length_flatMap_encodeSignature,
      length_encodeBody h]
    omega
  have hversion : readInt 1 (encodeVaa vaa) 0 = VAA_VERSION := by
    rw [encodeVaa, ← h.version]
    exact readInt_write _ (h.version ▸ by decide)
  have hset : readInt 4 (encodeVaa vaa) 1 = vaa.guardianSetIndex := by
    rw [encodeVaa, readInt_append _ (by simp), length_toBigEndian]
    exact readInt_write _ h.guardianSetIndex
  have hnum : readInt 1 (encodeVaa vaa) 5 = vaa.signatures.length := by
    rw [encodeVaa, readInt_append _ (by simp), length_toBigEndian, readInt_append _ (by simp),
      length_toBigEndian]
    exact readInt_write _ h.numSigs
  obtain ⟨htimestamp, hnonce, hchain, haddress, hsequence, hlevel, hpayload⟩ := fields_encodeBody h
  rw [parseVaa, if_neg (by omega)]
  simp only
  rw [hversion, if_neg (not_not.mpr rfl), hnum, if_neg (by omega), body_encodeVaa, hset,
    signatures_encodeVaa h, htimestamp, hnonce, hchain, haddress, hsequence, hlevel, hpayload,
    ← h.version, ← h.body]

theorem signatureFits_readSignature (raw : List UInt8) (offset : ℕ) :
    SignatureFits (readSignature raw offset) where
  guardianIndex := readInt_lt _ _ _
  r := readInt_lt _ _ _
  s := readInt_lt _ _ _
  v := readInt_lt _ _ _

theorem write_field (n : ℕ) (raw : List UInt8) (offset : ℕ) (h : offset + n ≤ raw.length) :
    toBigEndian n (readInt n raw offset) ++ raw.drop (offset + n) = raw.drop offset := by
  rw [toBigEndian_readInt h, ← List.drop_drop]
  exact List.take_append_drop _ _

theorem encodeSignature_readSignature {raw : List UInt8} {offset : ℕ}
    (h : offset + SIG_LEN ≤ raw.length) :
    encodeSignature (readSignature raw offset) ++ raw.drop (offset + SIG_LEN) =
      raw.drop offset := by
  have hlen : SIG_LEN = 66 := rfl
  have hv := write_field 1 raw (offset + 65) (by omega)
  have hs := write_field 32 raw (offset + 33) (by omega)
  have hr := write_field 32 raw (offset + 1) (by omega)
  have hindex := write_field 1 raw offset (by omega)
  simp only [Nat.add_assoc, Nat.reduceAdd] at hv hs hr hindex
  simp only [encodeSignature, readSignature, List.append_assoc, hlen]
  rw [hv, hs, hr, hindex]

theorem encode_readSignatures {raw : List UInt8} {n : ℕ} (h : 6 + SIG_LEN * n ≤ raw.length) :
    (((List.range n).map fun i => readSignature raw (6 + SIG_LEN * i)).flatMap encodeSignature) ++
      raw.drop (6 + SIG_LEN * n) = raw.drop 6 := by
  induction n with
  | zero => rfl
  | succ n ih =>
    rw [Nat.mul_succ, ← Nat.add_assoc] at h ⊢
    rw [List.range_succ, List.map_append, List.flatMap_append, List.append_assoc,
      List.map_singleton,
      List.flatMap_singleton, encodeSignature_readSignature h]
    exact ih (by omega)

theorem encodeBody_fields {body : List UInt8} (h : BODY_MIN ≤ body.length) (vaa : ParsedVaa)
    (htimestamp : vaa.timestamp = readInt 4 body 0) (hnonce : vaa.nonce = readInt 4 body 4)
    (hchain : vaa.emitterChain = readInt 2 body 8)
    (haddress : vaa.emitterAddress = (body.drop 10).take 32)
    (hsequence : vaa.sequence = readInt 8 body 42)
    (hlevel : vaa.consistencyLevel = readInt 1 body 50) (hpayload : vaa.payload = body.drop 51) :
    encodeBody vaa = body := by
  have hmin : BODY_MIN = 51 := rfl
  have htake : (body.drop 10).take 32 ++ body.drop 42 = body.drop 10 := by
    rw [← List.drop_drop (i := 32) (j := 10)]
    exact List.take_append_drop _ _
  rw [encodeBody, htimestamp, hnonce, hchain, haddress, hsequence, hlevel, hpayload,
    write_field 1 _ 50 (by omega), write_field 8 _ 42 (by omega),
    htake, write_field 2 _ 8 (by omega),
    write_field 4 _ 4 (by omega), write_field 4 _ 0 (by omega),
    List.drop_zero]

/-- Accepted bytes are well formed, and written back as they were. -/
theorem encodeVaa_parseVaa {raw : List UInt8} {vaa : ParsedVaa} (h : parseVaa raw = .ok vaa) :
    WellFormed vaa ∧ encodeVaa vaa = raw := by
  have hmin : BODY_MIN = 51 := rfl
  rw [parseVaa] at h
  split_ifs at h with hshort
  simp only at h
  split_ifs at h with hversion htruncated
  have hvaa := Except.ok.inj h
  have hversion := not_not.mp hversion
  have hbody : BODY_MIN ≤ (raw.drop (6 + SIG_LEN * readInt 1 raw 5)).length := by
    rw [List.length_drop]
    omega
  have hencoded : encodeBody vaa = raw.drop (6 + SIG_LEN * readInt 1 raw 5) := by
    subst hvaa
    exact encodeBody_fields hbody _ rfl rfl rfl rfl rfl rfl rfl
  subst hvaa
  constructor
  · exact {
      version := hversion
      guardianSetIndex := readInt_lt _ _ _
      numSigs := by
        rw [List.length_map, List.length_range]
        exact readInt_lt _ _ _
      signatures := by
        intro sig hsig
        obtain ⟨i, -, rfl⟩ := List.mem_map.mp hsig
        exact signatureFits_readSignature _ _
      body := hencoded.symm
      timestamp := readInt_lt _ _ _
      nonce := readInt_lt _ _ _
      emitterChain := readInt_lt _ _ _
      emitterAddress := by
        rw [List.length_take, List.length_drop]
        omega
      sequence := readInt_lt _ _ _
      consistencyLevel := readInt_lt _ _ _ }
  · rw [encodeVaa, hencoded]
    simp only [List.length_map, List.length_range]
    rw [encode_readSignatures (by omega), write_field 1 _ 5 (by omega),
      write_field 4 _ 1 (by omega), write_field 1 _ 0 (by omega),
      List.drop_zero]

/-- Accepted are exactly the bytes of well-formed VAAs, each with the fields that it was written
from; every other byte string raises a `VAAError`. -/
theorem parse_vaa_exact (raw : List UInt8) :
    (∀ vaa, parseVaaRaising raw = .ok vaa ↔ WellFormed vaa ∧ encodeVaa vaa = raw) ∧
      ((¬ ∃ vaa, WellFormed vaa ∧ encodeVaa vaa = raw) →
        ∃ error, parseVaaRaising raw = .error (.vaaError error)) := by
  rw [parseVaaRaising_eq]
  constructor
  · intro vaa
    constructor
    · intro h
      cases hparse : parseVaa raw with
      | error e =>
        rw [hparse] at h
        cases h
      | ok parsed =>
        rw [hparse] at h
        obtain rfl := Except.ok.inj h
        exact encodeVaa_parseVaa hparse
    · rintro ⟨hwell, rfl⟩
      rw [parseVaa_encodeVaa hwell]
      rfl
  · intro hnone
    cases hparse : parseVaa raw with
    | error e => exact ⟨e, rfl⟩
    | ok parsed => exact absurd ⟨parsed, encodeVaa_parseVaa hparse⟩ hnone

end VaaLayout
