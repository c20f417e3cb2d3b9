import LedgerLens.FallibleRuns
import LedgerLens.Proofs.PointArithmetic
import LedgerLens.Proofs.ZkVerifierContract

/-!
# Proof bytes and the proofs they decode to

The wire format holds a version byte and 32-byte words, each a coordinate or a scalar.
Decoding reduces every word by its modulus, so a proof fixes the residues of its words and
nothing more.
-/
namespace ZkVerifierContract

open ByteStrings ZkVerifierWords ZkVerifierCurve ThresholdVerifier

/-- Coordinates of the score commitment, then a record of six words for each bit. -/
def NUM_WORDS : ℕ := 2 + NUM_BITS * 6

def wordModulus (i : ℕ) : U256 :=
  if i < 2 then FIELD_MODULUS else if (i - 2) % 6 < 2 then FIELD_MODULUS else CURVE_ORDER

def word (proof : List UInt8) (i : ℕ) : BytesN 32 := .slice 32 proof (1 + 32 * i)

def wordValue (proof : List UInt8) (i : ℕ) : ℕ := ofBigEndian (word proof i).bytes

def residue (proof : List UInt8) (i : ℕ) : ℕ := wordValue proof i % (wordModulus i).toNat

/-- The accepted lengths and version, the checks before any word is read. -/
def WellFormed (proof : List UInt8) : Prop :=
  proof.length = PROOF_WIRE_LEN ∧ proof.head? = some PROOF_WIRE_VERSION

def IsCanonical (proof : List UInt8) : Prop :=
  ∀ i < NUM_WORDS, wordValue proof i < (wordModulus i).toNat

/-- The string with every word replaced by its residue. -/
def canonicalProof (proof : List UInt8) : List UInt8 :=
  PROOF_WIRE_VERSION :: wordsProof ((List.range NUM_WORDS).map fun i => .ofNat 32 (residue proof i))

/-- Affine coordinates in the order of the wire format. -/
def pointWords (p : Point) : List (BytesN 32) :=
  [p.toAffine.1.toBeBytes, p.toAffine.2.toBeBytes]

def bitWords (b : BitProof Point Fr) : List (BytesN 32) :=
  pointWords b.commit ++ [b.c0, b.c1, b.s0, b.s1].map (·.val.toBeBytes)

def serialiseProof (d : ProofData) : List UInt8 :=
  PROOF_WIRE_VERSION :: wordsProof (pointWords d.scoreCommit ++ d.bits.toList.flatMap bitWords)

theorem toBeBytes_eq (a : U256) : a.toBeBytes = .ofNat 32 a.toNat := by
  have hlimb (w : UInt64) : ofBigEndian (U256.limbBytes w) = w.toNat :=
    ofBigEndian_toBigEndian 8 _ w.toNat_lt
  have hvalue : ofBigEndian a.toBeBytes.bytes = a.toNat := by
    rw [U256.toNat_eq]
    simp only [U256.toBeBytes, ofBigEndian_append, hlimb]
    simp only [U256.limbBytes, length_toBigEndian]
    ring
  have hbytes := toBigEndian_ofBigEndian a.toBeBytes.bytes
  rw [hvalue, a.toBeBytes.length_eq] at hbytes
  cases h : a.toBeBytes with
  | mk bytes hlen =>
    rw [h] at hbytes
    simp only [BytesN.ofNat, BytesN.mk.injEq]
    exact hbytes.symm

theorem word_injective {v w : ℕ} (hv : v < 2 ^ 256) (hw : w < 2 ^ 256)
    (h : BytesN.ofNat 32 v = .ofNat 32 w) : v = w := by
  have hbytes := congrArg (fun b => ofBigEndian b.bytes) h
  simpa only [BytesN.ofNat, ofBigEndian_toBigEndian 32 _ hv, ofBigEndian_toBigEndian 32 _ hw]
    using hbytes

theorem word_wordsProof (v : UInt8) (words : List (BytesN 32)) (i : ℕ) (h : i < words.length) :
    word (v :: wordsProof words) i = words[i] := by
  have hslice := slice_wordsProof [v] words i h
  rwa [List.singleton_append, List.length_singleton] at hslice

theorem wordsProof_slices (n : ℕ) (l : List UInt8) (h : l.length = 32 * n) :
    wordsProof ((List.range n).map fun i => BytesN.slice 32 l (32 * i)) = l := by
  induction n generalizing l with
  | zero =>
    rw [List.length_eq_zero_iff.mp h]
    rfl
  | succ n ih =>
    have hdrop : (l.drop 32).length = 32 * n := by
      rw [List.length_drop]
      omega
    have htail (i : ℕ) : BytesN.slice 32 l (32 * (i + 1)) = .slice 32 (l.drop 32) (32 * i) := by
      simp only [BytesN.slice, List.drop_drop]
      rw [show 32 * (i + 1) = 32 + 32 * i by ring]
    have hhead : (BytesN.slice 32 l (32 * 0)).bytes = l.take 32 := by
      have hlen : (l.take 32).length = 32 := by
        rw [List.length_take]
        omega
      simp [BytesN.slice, List.rightpad, hlen]
    rw [List.range_succ_eq_map, List.map_cons, List.map_map, wordsProof, List.flatMap_cons, hhead]
    simp only [Function.comp_def, Nat.succ_eq_add_one, htail]
    have hrest := ih (l.drop 32) hdrop
    rw [wordsProof] at hrest
    rw [hrest, List.take_append_drop]

theorem WellFormed.eq_words {proof : List UInt8} (h : WellFormed proof) :
    proof = PROOF_WIRE_VERSION :: wordsProof ((List.range NUM_WORDS).map (word proof)) := by
  obtain ⟨hlen, hhead⟩ := h
  cases proof with
  | nil => cases hhead
  | cons v l =>
    obtain rfl := Option.some.inj hhead
    have hl : l.length = 32 * NUM_WORDS := by
      have : PROOF_WIRE_LEN = 1 + 32 * NUM_WORDS := rfl
      rw [List.length_cons] at hlen
      omega
    have hword (i : ℕ) : word (PROOF_WIRE_VERSION :: l) i = .slice 32 l (32 * i) := by
      simp only [word, BytesN.slice, Nat.add_comm 1, List.drop_succ_cons]
    rw [show word (PROOF_WIRE_VERSION :: l) = fun i => .slice 32 l (32 * i) from funext hword,
      wordsProof_slices _ _ hl]

theorem wordModulus_bounds (i : ℕ) :
    0 < (wordModulus i).toNat ∧ (wordModulus i).toNat < 2 ^ 255 := by
  have hp := fieldModulus_bounds
  have hn : 0 < CURVE_ORDER.toNat ∧ CURVE_ORDER.toNat < 2 ^ 255 := by decide
  rw [wordModulus]
  split
  · exact hp
  · split
    · exact hp
    · exact hn

theorem residue_lt (proof : List UInt8) (i : ℕ) : residue proof i < 2 ^ 256 :=
  (Nat.mod_lt _ (wordModulus_bounds i).1).trans ((wordModulus_bounds i).2.trans (by norm_num))

theorem word_canonicalProof (proof : List UInt8) {i : ℕ} (hi : i < NUM_WORDS) :
    word (canonicalProof proof) i = .ofNat 32 (residue proof i) := by
  rw [canonicalProof, word_wordsProof _ _ i (by simpa using hi), List.getElem_map,
    List.getElem_range]

theorem canonicalProof_eq_iff (proof proof' : List UInt8) :
    canonicalProof proof = canonicalProof proof' ↔
      ∀ i < NUM_WORDS, residue proof i = residue proof' i := by
  constructor
  · intro h i hi
    have hword := congrArg (fun l => word l i) h
    simp only [word_canonicalProof _ hi] at hword
    exact word_injective (residue_lt _ _) (residue_lt _ _) hword
  · intro h
    have hwords := List.map_congr_left fun i hi =>
      congrArg (BytesN.ofNat 32) (h i (List.mem_range.mp hi))
    rw [canonicalProof, canonicalProof, hwords]

theorem canonicalProof_eq_self_iff {proof : List UInt8} (h : WellFormed proof) :
    canonicalProof proof = proof ↔ IsCanonical proof := by
  have hofNat (i : ℕ) : BytesN.ofNat 32 (wordValue proof i) = word proof i := by
    have hbytes := toBigEndian_ofBigEndian (word proof i).bytes
    rw [(word proof i).length_eq] at hbytes
    cases hw : word proof i with
    | mk bytes hlen =>
      rw [hw] at hbytes
      simp only [BytesN.ofNat, wordValue, hw, BytesN.mk.injEq]
      exact hbytes
  constructor
  · intro heq i hi
    have hword := word_canonicalProof proof hi
    rw [heq] at hword
    have hvalue : wordValue proof i = residue proof i := by
      rw [wordValue, hword]
      exact ofBigEndian_toBigEndian 32 _ (residue_lt _ _)
    rw [hvalue]
    exact Nat.mod_lt _ (wordModulus_bounds i).1
  · intro hcan
    have hword : ∀ i ∈ List.range NUM_WORDS,
        BytesN.ofNat 32 (residue proof i) = word proof i := by
      intro i hi
      rw [residue, Nat.mod_eq_of_lt (hcan i (List.mem_range.mp hi)), hofNat]
    rw [canonicalProof, List.map_congr_left hword]
    exact h.eq_words.symm

theorem decoded_coordinate (proof : List UInt8) {i : ℕ} (h : wordModulus i = FIELD_MODULUS) :
    (Fq.fromBeBytes (word proof i)).toBeBytes = .ofNat 32 (residue proof i) := by
  rw [Fq.toBeBytes, Fq.fromBeBytes, toBeBytes_eq,
    U256.rem_spec _ fieldModulus_bounds.1 fieldModulus_bounds.2, U256.fromBeBytes_toNat, residue, h,
    wordValue]

theorem decoded_scalar (proof : List UInt8) {i : ℕ} (h : wordModulus i = CURVE_ORDER) :
    (Fr.fromBeBytes (word proof i)).val.toBeBytes = .ofNat 32 (residue proof i) := by
  have hb := wordModulus_bounds i
  rw [h] at hb
  rw [Fr.fromBeBytes, toBeBytes_eq, U256.rem_spec _ hb.1 hb.2, U256.fromBeBytes_toNat, residue, h,
    wordValue]

theorem eq_of_toBeBytes {a b : U256} (h : a.toBeBytes = b.toBeBytes) : a = b := by
  rw [toBeBytes_eq, toBeBytes_eq] at h
  exact U256.toNat_inj (word_injective a.toNat_lt b.toNat_lt h)

theorem decoded_coordinate_congr {proof proof' : List UInt8} {i : ℕ}
    (hm : wordModulus i = FIELD_MODULUS) (h : residue proof i = residue proof' i) :
    Fq.fromBeBytes (word proof i) = .fromBeBytes (word proof' i) := by
  have hbytes : (Fq.fromBeBytes (word proof i)).toBeBytes =
      (Fq.fromBeBytes (word proof' i)).toBeBytes := by
    rw [decoded_coordinate _ hm, decoded_coordinate _ hm, h]
  exact congrArg Fq.mk (eq_of_toBeBytes hbytes)

theorem decoded_scalar_congr {proof proof' : List UInt8} {i : ℕ}
    (hm : wordModulus i = CURVE_ORDER) (h : residue proof i = residue proof' i) :
    Fr.fromBeBytes (word proof i) = .fromBeBytes (word proof' i) := by
  have hbytes : (Fr.fromBeBytes (word proof i)).val.toBeBytes =
      (Fr.fromBeBytes (word proof' i)).val.toBeBytes := by
    rw [decoded_scalar _ hm, decoded_scalar _ hm, h]
  exact congrArg Fr.mk (eq_of_toBeBytes hbytes)

theorem pointWords_decoded {b b' : BytesN 32} {p : Point}
    (h : Point.fromAffineChecked (.fromBeBytes b) (.fromBeBytes b') = some p) :
    pointWords p = [(Fq.fromBeBytes b).toBeBytes, (Fq.fromBeBytes b').toBeBytes] := by
  rw [Point.fromAffineChecked] at h
  split at h
  · obtain rfl := Option.some.inj h
    rw [pointWords, Point.toAffine_one (fromBeBytes_isValid b) (fromBeBytes_isValid b')]
  · cases h

/-- The six words of record `i`. -/
theorem wordModulus_record (i : ℕ) :
    wordModulus (2 + 6 * i) = FIELD_MODULUS ∧ wordModulus (2 + 6 * i + 1) = FIELD_MODULUS ∧
      ∀ j, 2 ≤ j → j < 6 → wordModulus (2 + 6 * i + j) = CURVE_ORDER := by
  refine ⟨?_, ?_, ?_⟩
  · rw [wordModulus, if_neg (by omega), if_pos (by omega)]
  · rw [wordModulus, if_neg (by omega), if_pos (by omega)]
  · intro j h2 h6
    rw [wordModulus, if_neg (by omega), if_neg (by omega)]

/-- Record `i` read word by word. -/
theorem readBit_words (proof : List UInt8) (i : ℕ) :
    readBit proof (65 + i * BIT_RECORD_LEN) = (Point.fromAffineChecked
      (.fromBeBytes (word proof (2 + 6 * i))) (.fromBeBytes (word proof (2 + 6 * i + 1)))).map
        fun commit => {
          commit
          c0 := .fromBeBytes (word proof (2 + 6 * i + 2))
          c1 := .fromBeBytes (word proof (2 + 6 * i + 3))
          s0 := .fromBeBytes (word proof (2 + 6 * i + 4))
          s1 := .fromBeBytes (word proof (2 + 6 * i + 5)) } := by
  have hword (j : ℕ) : BytesN.slice 32 proof (65 + i * BIT_RECORD_LEN + 32 * j) =
      word proof (2 + 6 * i + j) := by
    rw [word, BIT_RECORD_LEN]
    congr 1
    ring
  have h0 := hword 0
  have h1 := hword 1
  have h2 := hword 2
  have h3 := hword 3
  have h4 := hword 4
  have h5 := hword 5
  simp only [Nat.mul_zero, Nat.add_zero, Nat.reduceMul] at h0 h1 h2 h3 h4 h5
  simp only [readBit, Option.map_eq_bind, h0, h1, h2, h3, h4, h5]
  rfl

theorem bitWords_decoded {proof : List UInt8} {i : ℕ} {b : BitProof Point Fr}
    (h : readBit proof (65 + i * BIT_RECORD_LEN) = some b) :
    bitWords b = (List.range 6).map fun j => .ofNat 32 (residue proof (2 + 6 * i + j)) := by
  obtain ⟨hx, hy, hs⟩ := wordModulus_record i
  rw [readBit_words] at h
  obtain ⟨commit, hcommit, rfl⟩ := Option.map_eq_some_iff.mp h
  have hpoint := pointWords_decoded hcommit
  rw [decoded_coordinate proof hx, decoded_coordinate proof hy] at hpoint
  simp only [bitWords, hpoint, List.map_cons, List.map_nil,
    decoded_scalar proof (hs 2 le_rfl (by decide)),
    decoded_scalar proof (hs 3 (by decide) (by decide)),
    decoded_scalar proof (hs 4 (by decide) (by decide)),
    decoded_scalar proof (hs 5 (by decide) (by decide))]
  rfl

theorem deserialiseProof_eq_some {proof : List UInt8} {d : ProofData} :
    deserialiseProof proof = some d ↔ WellFormed proof ∧
      Point.fromAffineChecked (.fromBeBytes (word proof 0)) (.fromBeBytes (word proof 1)) =
        some d.scoreCommit ∧
      List.Forall₂ (fun i b => readBit proof (65 + i * BIT_RECORD_LEN) = some b)
        (List.range NUM_BITS) d.bits.toList := by
  have hmapM (bits : Vector (BitProof Point Fr) NUM_BITS) :
      (Vector.range NUM_BITS).mapM (fun i => readBit proof (65 + i * BIT_RECORD_LEN)) =
        some bits ↔ List.Forall₂ (fun i b => readBit proof (65 + i * BIT_RECORD_LEN) = some b)
          (List.range NUM_BITS) bits.toList := by
    have hlist : Array.toList <$> (Vector.range NUM_BITS).toArray.mapM
        (fun i => readBit proof (65 + i * BIT_RECORD_LEN)) = _ := Array.toList_mapM
    rw [← Vector.toArray_mapM, ← Vector.toList, Vector.toList_range, Option.map_eq_map,
      Option.map_eq_map, Option.map_map] at hlist
    rw [← FallibleRuns.mapM_eq_some, ← hlist, Option.map_eq_some_iff]
    constructor
    · intro h
      exact ⟨bits, h, rfl⟩
    · rintro ⟨other, hother, heq⟩
      rw [hother, Vector.toList_inj.mp heq]
  rw [deserialiseProof]
  by_cases hlen : proof.length = PROOF_WIRE_LEN
  · rw [if_neg (not_not.mpr hlen)]
    by_cases hversion : proof.head? = some PROOF_WIRE_VERSION
    · rw [if_neg (not_not.mpr hversion)]
      simp only [Option.bind_eq_bind, Option.bind_eq_some_iff, hmapM]
      constructor
      · rintro ⟨p, hp, bits, hbits, hd⟩
        cases hd
        exact ⟨⟨hlen, hversion⟩, hp, hbits⟩
      · rintro ⟨-, hp, hbits⟩
        exact ⟨d.scoreCommit, hp, d.bits, hbits, rfl⟩
    · rw [if_pos hversion]
      exact ⟨nofun, fun h => absurd h.1.2 hversion⟩
  · rw [if_pos hlen]
    exact ⟨nofun, fun h => absurd h.1.1 hlen⟩

theorem flatMap_bitWords {proof : List UInt8} {indices : List ℕ}
    {bits : List (BitProof Point Fr)}
    (h : List.Forall₂ (fun i b => readBit proof (65 + i * BIT_RECORD_LEN) = some b) indices bits) :
    bits.flatMap bitWords = indices.flatMap fun i =>
      (List.range 6).map fun j => .ofNat 32 (residue proof (2 + 6 * i + j)) := by
  induction h with
  | nil => rfl
  | cons hb _ ih => rw [List.flatMap_cons, List.flatMap_cons, bitWords_decoded hb, ih]

theorem serialiseProof_decoded {proof : List UInt8} {d : ProofData}
    (h : deserialiseProof proof = some d) : serialiseProof d = canonicalProof proof := by
  obtain ⟨-, hpoint, hbits⟩ := deserialiseProof_eq_some.mp h
  have hcommit := pointWords_decoded hpoint
  rw [decoded_coordinate proof rfl, decoded_coordinate proof rfl] at hcommit
  rw [serialiseProof, hcommit, flatMap_bitWords hbits, canonicalProof]
  rfl

theorem readBit_congr {proof proof' : List UInt8}
    (h : ∀ i < NUM_WORDS, residue proof i = residue proof' i) {i : ℕ} (hi : i < NUM_BITS) :
    readBit proof (65 + i * BIT_RECORD_LEN) = readBit proof' (65 + i * BIT_RECORD_LEN) := by
  obtain ⟨hx, hy, hs⟩ := wordModulus_record i
  have hlt (j : ℕ) (hj : j < 6) : 2 + 6 * i + j < NUM_WORDS := by
    rw [NUM_WORDS]
    omega
  rw [readBit_words, readBit_words, decoded_coordinate_congr hx (h _ (hlt 0 (by decide))),
    decoded_coordinate_congr hy (h _ (hlt 1 (by decide))),
    decoded_scalar_congr (hs 2 (by decide) (by decide)) (h _ (hlt 2 (by decide))),
    decoded_scalar_congr (hs 3 (by decide) (by decide)) (h _ (hlt 3 (by decide))),
    decoded_scalar_congr (hs 4 (by decide) (by decide)) (h _ (hlt 4 (by decide))),
    decoded_scalar_congr (hs 5 (by decide) (by decide)) (h _ (hlt 5 (by decide)))]

/-- Two strings with the same residues decode alike. -/
theorem deserialiseProof_congr {proof proof' : List UInt8} {d : ProofData}
    (h : ∀ i < NUM_WORDS, residue proof i = residue proof' i) (hwf : WellFormed proof')
    (hd : deserialiseProof proof = some d) : deserialiseProof proof' = some d := by
  obtain ⟨-, hpoint, hbits⟩ := deserialiseProof_eq_some.mp hd
  refine deserialiseProof_eq_some.mpr ⟨hwf, ?_, ?_⟩
  · rw [← decoded_coordinate_congr rfl (h 0 (by decide)),
      ← decoded_coordinate_congr rfl (h 1 (by decide))]
    exact hpoint
  · refine List.forall₂_iff_get.mpr ⟨hbits.length_eq, ?_⟩
    intro i hi hi'
    have hget := hbits.get hi hi'
    simp only [List.get_eq_getElem, List.getElem_range] at hget ⊢
    rw [← readBit_congr h (by simpa using hi)]
    exact hget

/-- Re-encoding gives the string of residues. That is the accepted string exactly when all its
words are reduced, and two accepted strings decode alike exactly when their residues agree. -/
theorem reencoded_proof {proof : List UInt8} {d : ProofData}
    (h : deserialiseProof proof = some d) :
    serialiseProof d = canonicalProof proof ∧
      (serialiseProof d = proof ↔ IsCanonical proof) ∧
      (∀ proof', deserialiseProof proof' = some d ↔
        WellFormed proof' ∧ canonicalProof proof' = canonicalProof proof) ∧
      ∀ proof', deserialiseProof proof' = some d → IsCanonical proof → IsCanonical proof' →
        proof' = proof := by
  have hwf := (deserialiseProof_eq_some.mp h).1
  have hserial := serialiseProof_decoded h
  refine ⟨hserial, ?_, ?_, ?_⟩
  · rw [hserial, canonicalProof_eq_self_iff hwf]
  · intro proof'
    constructor
    · intro h'
      exact ⟨(deserialiseProof_eq_some.mp h').1,
        (serialiseProof_decoded h').symm.trans hserial⟩
    · rintro ⟨hwf', heq⟩
      exact deserialiseProof_congr ((canonicalProof_eq_iff _ _).mp heq.symm) hwf' h
  · intro proof' h' hcan hcan'
    have hwf' := (deserialiseProof_eq_some.mp h').1
    rw [← (canonicalProof_eq_self_iff hwf).mpr hcan,
      ← (canonicalProof_eq_self_iff hwf').mpr hcan', ← serialiseProof_decoded h', hserial]

/-- The generator as every commitment and zero scalars, with `x` as the first coordinate. -/
def generatorProof (x : ℕ) : List UInt8 :=
  PROOF_WIRE_VERSION :: wordsProof ([.ofNat 32 x, .ofNat 32 2] ++
    (List.range NUM_BITS).flatMap fun _ => [1, 2, 0, 0, 0, 0].map (BytesN.ofNat 32))

theorem generatorProof_accepted : ∃ d, deserialiseProof (generatorProof 1) = some d := by
  have h : (deserialiseProof (generatorProof 1)).isSome = true := by decide +kernel
  exact Option.isSome_iff_exists.mp h

theorem generatorProof_canonical : IsCanonical (generatorProof 1) := by
  have h : ∀ i ∈ List.range NUM_WORDS,
      wordValue (generatorProof 1) i < (wordModulus i).toNat := by decide +kernel
  exact fun i hi => h i (List.mem_range.mpr hi)

theorem generatorProof_reencoded : ∃ d, deserialiseProof (generatorProof 1) = some d ∧
    serialiseProof d = generatorProof 1 := by
  obtain ⟨d, hd⟩ := generatorProof_accepted
  exact ⟨d, hd, (reencoded_proof hd).2.1.mpr generatorProof_canonical⟩

/-- The same proof with the first coordinate raised by the field modulus. -/
theorem shifted_generatorProof : ∃ d, deserialiseProof (generatorProof 1) = some d ∧
    deserialiseProof (generatorProof (1 + Bn254.fieldModulus)) = some d ∧
    generatorProof (1 + Bn254.fieldModulus) ≠ generatorProof 1 ∧
    serialiseProof d ≠ generatorProof (1 + Bn254.fieldModulus) := by
  obtain ⟨d, hd⟩ := generatorProof_accepted
  have hwf : WellFormed (generatorProof (1 + Bn254.fieldModulus)) := by
    constructor <;> decide +kernel
  have hresidues : ∀ i ∈ List.range NUM_WORDS, residue (generatorProof 1) i =
      residue (generatorProof (1 + Bn254.fieldModulus)) i := by decide +kernel
  have hne : generatorProof (1 + Bn254.fieldModulus) ≠ generatorProof 1 := by decide +kernel
  have hd' := deserialiseProof_congr (fun i hi => hresidues i (List.mem_range.mpr hi)) hwf hd
  have hserial : serialiseProof d = generatorProof 1 := by
    rw [serialiseProof_decoded hd]
    exact (canonicalProof_eq_self_iff (deserialiseProof_eq_some.mp hd).1).mpr
      generatorProof_canonical
  exact ⟨d, hd, hd', hne, fun heq => hne (heq.symm.trans hserial)⟩

end ZkVerifierContract
