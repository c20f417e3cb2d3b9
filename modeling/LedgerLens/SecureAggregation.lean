import LedgerLens.ByteStrings
import LedgerLens.Doubles
import Mathlib.Algebra.BigOperators.Group.Finset.Basic
import Mathlib.Algebra.Order.Floor.Ring
import Mathlib.Data.BitVec
import Mathlib.Data.Finset.Sort
import Mathlib.Data.List.GetD
import Mathlib.Data.Rat.Floor
import Mathlib.Data.String.Basic

/-!
# Secure aggregation by pairwise masks

`detection/federated/secure_agg.py`. Every pair of participants shares a mask that one of them adds
and the other subtracts, in the ring of the integers modulo `2 ^ 64`, so that the sum of the masked
updates is the sum of the updates once everybody has reported.
-/
namespace SecureAggregation

open ByteStrings
open Doubles (roundHalfEven)

/-- Summed over all ordered pairs, opposite contributions vanish, also where `2` is a zero
divisor. -/
theorem sum_pairs_cancel {ι A : Type*} [AddCommGroup A] (f : ι → ι → A)
    (hself : ∀ a, f a a = 0) (hpair : ∀ a b, f a b + f b a = 0) (l : List ι) :
    (l.map fun a => (l.map fun b => f a b).sum).sum = 0 := by
  induction l with
  | nil => rfl
  | cons a l ih =>
    have hcross : (l.map fun b => f a b).sum + (l.map fun b => f b a).sum = 0 := by
      rw [← List.sum_map_add, List.sum_eq_zero]
      intro x hx
      obtain ⟨b, -, rfl⟩ := List.mem_map.mp hx
      exact hpair a b
    calc ((a :: l).map fun b => ((a :: l).map fun c => f b c).sum).sum
        = (f a a + (l.map fun b => f a b).sum) + ((l.map fun b => f b a).sum +
            (l.map fun b => (l.map fun c => f b c).sum).sum) := by
          simp only [List.map_cons, List.sum_cons, List.sum_map_add]
      _ = (l.map fun b => f a b).sum + (l.map fun b => f b a).sum := by
          rw [hself, ih, zero_add, add_zero]
      _ = 0 := hcross

def MIN_PARTICIPANTS : ℕ := 3
def FRAC_BITS : ℕ := 24

/-- A `uint64`. -/
abbrev Word := BitVec 64

def scaled (x : ℚ) : ℤ := roundHalfEven (x * 2 ^ FRAC_BITS)

/-- `astype(np.int64).view(np.uint64)`. -/
def encodeValue (x : ℚ) : Word := BitVec.ofInt 64 (scaled x)

def encode (update : List ℚ) : List Word := update.map encodeValue

/-- The nearest double, ties to the even significand. -/
def toDouble (z : ℤ) : ℤ :=
  let unit : ℤ := 2 ^ (z.natAbs.log2 - 52)
  roundHalfEven (z / unit) * unit

def decodeValue (w : Word) : ℚ := toDouble w.toInt / 2 ^ FRAC_BITS

def decode (encoded : List Word) : List ℚ := encoded.map decodeValue

/-- A vector of a given size whose values fit into `int64` once they are scaled. -/
structure Update (size : ℕ) where
  values : List ℚ
  length_eq : values.length = size
  encodable : ∀ x ∈ values, -2 ^ 63 ≤ scaled x ∧ scaled x < 2 ^ 63

/-- X25519, whose exchange is symmetric, HKDF over its info string and the shared secret, and the
draws of the seeded generator. -/
structure Cryptography (Private Public Secret : Type*) where
  publicKey : Private → Public
  exchange : Private → Public → Secret
  exchange_comm : ∀ a b, exchange a (publicKey b) = exchange b (publicKey a)
  hkdf : String → Secret → List UInt8
  integers : ℕ → ℕ → List Word
  length_integers : ∀ seed size, (integers seed size).length = size

variable {Private Public Secret : Type*}

def pairMask (crypto : Cryptography Private Public Secret) (sharedSecret : Secret)
    (roundId : String) (size : ℕ) : List Word :=
  crypto.integers (ofBigEndian (crypto.hkdf ("ledgerlens-secagg:" ++ roundId) sharedSecret)) size

structure SecureAggParticipant (Private : Type*) where
  participantId : String
  privateKey : Private

def vectorAdd (v w : List Word) : List Word := List.zipWith (· + ·) v w
def vectorSub (v w : List Word) : List Word := List.zipWith (· - ·) v w

def maskAgainst (crypto : Cryptography Private Public Secret)
    (p : SecureAggParticipant Private) (roundId : String) (masked : List Word)
    (peer : String × Public) : List Word :=
  if peer.1 = p.participantId then masked
  else
    let mask := pairMask crypto (crypto.exchange p.privateKey peer.2) roundId masked.length
    if p.participantId < peer.1 then vectorAdd masked mask else vectorSub masked mask

def maskUpdate (crypto : Cryptography Private Public Secret) (p : SecureAggParticipant Private)
    (update : List ℚ) (publicKeys : List (String × Public)) (roundId : String) : List Word :=
  publicKeys.foldl (maskAgainst crypto p roundId) (encode update)

inductive SecureAggError where
  | tooFewParticipants
  | unexpectedParticipant (id : String)
  | alreadyReported (id : String)
  | shapeMismatch
  | missingParticipants (ids : List String)
  | noSum
  deriving DecidableEq

structure SecureAggregator where
  roundId : String
  expected : Finset String
  reported : Finset String
  runningSum : Option (List Word)

namespace SecureAggregator

def new (expectedParticipants : List String) (roundId : String) :
    Except SecureAggError SecureAggregator :=
  if expectedParticipants.toFinset.card < MIN_PARTICIPANTS then .error .tooFewParticipants
  else .ok ⟨roundId, expectedParticipants.toFinset, ∅, none⟩

def submit (agg : SecureAggregator) (participantId : String) (masked : List Word) :
    Except SecureAggError Unit × SecureAggregator :=
  if participantId ∉ agg.expected then (.error (.unexpectedParticipant participantId), agg)
  else if participantId ∈ agg.reported then (.error (.alreadyReported participantId), agg)
  else
    match agg.runningSum with
    | none => (.ok (), { agg with
        runningSum := some masked
        reported := insert participantId agg.reported })
    | some sum =>
      if masked.length ≠ sum.length then (.error .shapeMismatch, agg)
      else (.ok (), { agg with
        runningSum := some (vectorAdd sum masked)
        reported := insert participantId agg.reported })

def aggregate (agg : SecureAggregator) : Except SecureAggError (List ℚ) :=
  let missing := agg.expected \ agg.reported
  if missing.Nonempty then .error (.missingParticipants (missing.sort (· ≤ ·)))
  else
    match agg.runningSum with
    | none => .error .noSum
    | some sum => .ok (decode sum)

def submitAll (agg : SecureAggregator) (attempts : List (String × List Word)) :
    SecureAggregator :=
  attempts.foldl (fun agg attempt => (agg.submit attempt.1 attempt.2).2) agg

end SecureAggregator

structure Round (Private : Type*) (size : ℕ) where
  participants : List (SecureAggParticipant Private)
  nodup : (participants.map SecureAggParticipant.participantId).Nodup
  enough : MIN_PARTICIPANTS ≤ participants.length
  roundId : String
  update : String → Update size

namespace Round

variable {size : ℕ} (crypto : Cryptography Private Public Secret) (round : Round Private size)

def ids : List String := round.participants.map SecureAggParticipant.participantId

def publicKeys : List (String × Public) :=
  round.participants.map fun p => (p.participantId, crypto.publicKey p.privateKey)

def masked (p : SecureAggParticipant Private) : List Word :=
  maskUpdate crypto p (round.update p.participantId).values (round.publicKeys crypto) round.roundId

/-- What is submitted under a participant's id is its masked update. Anything may be submitted
under other ids, and everything any number of times. -/
def Honest (attempts : List (String × List Word)) : Prop :=
  ∀ attempt ∈ attempts, ∀ p ∈ round.participants, p.participantId = attempt.1 →
    attempt.2 = round.masked crypto p

def encodedSum : List Word :=
  (List.range size).map fun i =>
    (round.ids.map fun id => (encode (round.update id).values).getD i 0).sum

end Round

section

variable {size : ℕ} {crypto : Cryptography Private Public Secret} {round : Round Private size}

theorem getD_zipWith {op : Word → Word → Word} (hop : op 0 0 = 0) {v w : List Word}
    (h : v.length = w.length) (i : ℕ) :
    (List.zipWith op v w).getD i 0 = op (v.getD i 0) (w.getD i 0) := by
  have hlength : (List.zipWith op v w).length = v.length := by simp [h]
  by_cases hi : i < v.length
  · rw [List.getD_eq_getElem _ _ (hlength.symm ▸ hi), List.getElem_zipWith,
      List.getD_eq_getElem _ _ hi, List.getD_eq_getElem _ _ (h ▸ hi)]
  · have hi := not_lt.mp hi
    rw [List.getD_eq_default _ _ (hlength.symm ▸ hi), List.getD_eq_default _ _ hi,
      List.getD_eq_default _ _ (h ▸ hi), hop]

theorem getD_vectorAdd {v w : List Word} (h : v.length = w.length) (i : ℕ) :
    (vectorAdd v w).getD i 0 = v.getD i 0 + w.getD i 0 :=
  getD_zipWith (add_zero 0) h i

theorem getD_vectorSub {v w : List Word} (h : v.length = w.length) (i : ℕ) :
    (vectorSub v w).getD i 0 = v.getD i 0 - w.getD i 0 :=
  getD_zipWith (sub_zero 0) h i

def maskTerm (crypto : Cryptography Private Public Secret) (p : SecureAggParticipant Private)
    (roundId : String) (size i : ℕ) (peer : String × Public) : Word :=
  let mask := pairMask crypto (crypto.exchange p.privateKey peer.2) roundId size
  if peer.1 = p.participantId then 0
  else if p.participantId < peer.1 then mask.getD i 0 else -mask.getD i 0

theorem length_pairMask (sharedSecret : Secret) (roundId : String) (size : ℕ) :
    (pairMask crypto sharedSecret roundId size).length = size :=
  crypto.length_integers _ _

theorem length_maskAgainst (p : SecureAggParticipant Private) (roundId : String)
    (masked : List Word) (peer : String × Public) :
    (maskAgainst crypto p roundId masked peer).length = masked.length := by
  unfold maskAgainst
  split_ifs <;> simp [vectorAdd, vectorSub, length_pairMask]

theorem getD_maskAgainst (p : SecureAggParticipant Private) (roundId : String)
    (masked : List Word) (peer : String × Public) (i : ℕ) :
    (maskAgainst crypto p roundId masked peer).getD i 0 =
      masked.getD i 0 + maskTerm crypto p roundId masked.length i peer := by
  unfold maskAgainst maskTerm
  simp only
  split_ifs with hself hless
  · exact (add_zero _).symm
  · exact getD_vectorAdd (length_pairMask _ _ _).symm i
  · rw [getD_vectorSub (length_pairMask _ _ _).symm, sub_eq_add_neg]

theorem foldl_maskAgainst (p : SecureAggParticipant Private) (roundId : String)
    (peers : List (String × Public)) (masked : List Word) :
    (peers.foldl (maskAgainst crypto p roundId) masked).length = masked.length ∧
      ∀ i, (peers.foldl (maskAgainst crypto p roundId) masked).getD i 0 =
        masked.getD i 0 + (peers.map (maskTerm crypto p roundId masked.length i)).sum := by
  induction peers generalizing masked with
  | nil => exact ⟨rfl, fun i => (add_zero _).symm⟩
  | cons peer peers ih =>
    obtain ⟨hlength, hcoord⟩ := ih (maskAgainst crypto p roundId masked peer)
    rw [length_maskAgainst] at hlength
    refine ⟨hlength, fun i => ?_⟩
    rw [List.foldl_cons, hcoord i, getD_maskAgainst, length_maskAgainst, List.map_cons,
      List.sum_cons, add_assoc]

theorem length_encode (update : Update size) : (encode update.values).length = size := by
  rw [encode, List.length_map, update.length_eq]

theorem Round.length_masked (p : SecureAggParticipant Private) :
    (round.masked crypto p).length = size :=
  (foldl_maskAgainst p _ _ _).1.trans (length_encode _)

def Round.term (crypto : Cryptography Private Public Secret) (round : Round Private size) (i : ℕ)
    (p q : SecureAggParticipant Private) : Word :=
  maskTerm crypto p round.roundId size i (q.participantId, crypto.publicKey q.privateKey)

theorem Round.getD_masked (p : SecureAggParticipant Private) (i : ℕ) :
    (round.masked crypto p).getD i 0 = (encode (round.update p.participantId).values).getD i 0 +
      (round.participants.map fun q => round.term crypto i p q).sum := by
  have hcoord : (round.masked crypto p).getD i 0 =
      (encode (round.update p.participantId).values).getD i 0 +
        ((round.publicKeys crypto).map (maskTerm crypto p round.roundId
          (encode (round.update p.participantId).values).length i)).sum :=
    (foldl_maskAgainst p round.roundId (round.publicKeys crypto) _).2 i
  rw [length_encode, Round.publicKeys, List.map_map] at hcoord
  exact hcoord

theorem Round.term_add_term (i : ℕ) (p q : SecureAggParticipant Private) :
    round.term crypto i p q + round.term crypto i q p = 0 := by
  unfold Round.term maskTerm
  simp only
  rw [crypto.exchange_comm q.privateKey p.privateKey]
  rcases lt_trichotomy p.participantId q.participantId with hlt | heq | hgt
  · simp [hlt, hlt.ne, hlt.ne', hlt.not_gt]
  · simp [heq]
  · simp [hgt, hgt.ne, hgt.ne', hgt.not_gt]

theorem Round.sum_masked (i : ℕ) :
    (round.participants.map fun p => (round.masked crypto p).getD i 0).sum =
      (round.ids.map fun id => (encode (round.update id).values).getD i 0).sum := by
  have hcancel := sum_pairs_cancel (round.term crypto i) (fun p => by simp [Round.term, maskTerm])
    (Round.term_add_term i) round.participants
  simp only [Round.getD_masked, List.sum_map_add, hcancel, add_zero, Round.ids, List.map_map]
  rfl

def Round.maskedBy (crypto : Cryptography Private Public Secret) (round : Round Private size)
    (id : String) : List Word :=
  ((round.participants.find? fun p => p.participantId = id).map (round.masked crypto)).getD []

theorem Round.nodup_ids : round.ids.Nodup := round.nodup

theorem Round.maskedBy_of_mem {p : SecureAggParticipant Private} (hp : p ∈ round.participants) :
    round.maskedBy crypto p.participantId = round.masked crypto p := by
  unfold Round.maskedBy
  cases hfind : round.participants.find? fun q => q.participantId = p.participantId with
  | none =>
    have := List.find?_eq_none.mp hfind p hp
    simp at this
  | some q =>
    have hid : q.participantId = p.participantId := by simpa using List.find?_some hfind
    rw [List.inj_on_of_nodup_map round.nodup (List.mem_of_find?_eq_some hfind) hp hid]
    rfl

/-- The aggregator after attempts for the ids `seen`. -/
structure Collected (crypto : Cryptography Private Public Secret) (round : Round Private size)
    (seen : List String) (agg : SecureAggregator) : Prop where
  expected : agg.expected = round.ids.toFinset
  reported : agg.reported = round.ids.toFinset.filter fun id => id ∈ seen
  unset : agg.runningSum = none → agg.reported = ∅
  length : ∀ sum, agg.runningSum = some sum → sum.length = size
  coordinates : ∀ sum, agg.runningSum = some sum → ∀ i, sum.getD i 0 =
    ∑ id ∈ agg.reported, (round.maskedBy crypto id).getD i 0

theorem filter_seen_insert {ids : Finset String} {seen : List String} {id : String}
    (hid : id ∈ ids) : insert id (ids.filter fun a => a ∈ seen) =
      ids.filter fun a => a ∈ seen ++ [id] := by
  ext a
  simp only [Finset.mem_insert, Finset.mem_filter, List.mem_append, List.mem_singleton]
  constructor
  · rintro (rfl | ⟨ha, hseen⟩)
    · exact ⟨hid, .inr rfl⟩
    · exact ⟨ha, .inl hseen⟩
  · rintro ⟨ha, hseen | rfl⟩
    · exact .inr ⟨ha, hseen⟩
    · exact .inl rfl

theorem filter_seen_same {ids : Finset String} {seen : List String} {id : String}
    (h : id ∈ ids → id ∈ seen) : (ids.filter fun a => a ∈ seen) =
      ids.filter fun a => a ∈ seen ++ [id] := by
  ext a
  simp only [Finset.mem_filter, List.mem_append, List.mem_singleton]
  constructor
  · rintro ⟨ha, hseen⟩
    exact ⟨ha, .inl hseen⟩
  · rintro ⟨ha, hseen | rfl⟩
    · exact ⟨ha, hseen⟩
    · exact ⟨ha, h ha⟩

theorem submit_rejected {agg : SecureAggregator} {id : String} {masked : List Word}
    (h : (agg.submit id masked).1 ≠ .ok ()) : (agg.submit id masked).2 = agg := by
  unfold SecureAggregator.submit at h ⊢
  by_cases hexpected : id ∈ agg.expected
  · by_cases hreported : id ∈ agg.reported
    · simp [hexpected, hreported]
    · simp only [hexpected, not_true, if_false, hreported] at h ⊢
      cases hsum : agg.runningSum with
      | none => simp [hsum] at h
      | some sum =>
        by_cases hshape : masked.length = sum.length
        · simp [hsum, hshape] at h
        · simp [hshape]
  · simp [hexpected]

/-- One attempt is counted exactly where it is the first of an expected participant. -/
theorem Collected.submit {seen : List String} {agg : SecureAggregator}
    (h : Collected crypto round seen agg) {id : String} {masked : List Word}
    (hhonest : ∀ p ∈ round.participants, p.participantId = id →
      masked = round.masked crypto p) :
    Collected crypto round (seen ++ [id]) (agg.submit id masked).2 := by
  have keep (hid : id ∈ round.ids.toFinset → id ∈ seen) :
    Collected crypto round (seen ++ [id]) agg :=
    ⟨h.expected, h.reported.trans (filter_seen_same hid), h.unset, h.length, h.coordinates⟩
  unfold SecureAggregator.submit
  by_cases hexpected : id ∈ agg.expected
  swap
  · rw [if_pos hexpected]
    exact keep fun hid => absurd (h.expected ▸ hid) hexpected
  rw [if_neg (not_not.mpr hexpected)]
  by_cases hreported : id ∈ agg.reported
  · rw [if_pos hreported]
    rw [h.reported] at hreported
    exact keep fun _ => (Finset.mem_filter.mp hreported).2
  · rw [if_neg hreported]
    have hid : id ∈ round.ids.toFinset := h.expected ▸ hexpected
    obtain ⟨p, hp, rfl⟩ := List.mem_map.mp (List.mem_toFinset.mp hid)
    obtain rfl := hhonest p hp rfl
    have hmasked : round.maskedBy crypto p.participantId = round.masked crypto p :=
      Round.maskedBy_of_mem hp
    have hinsert : insert p.participantId agg.reported =
        round.ids.toFinset.filter fun a => a ∈ seen ++ [p.participantId] := by
      rw [h.reported]
      exact filter_seen_insert hid
    cases hsum : agg.runningSum with
    | none =>
      refine ⟨h.expected, hinsert, nofun, ?_, ?_⟩
      · rintro sum hfirst
        obtain rfl := Option.some.inj hfirst
        exact Round.length_masked p
      · rintro sum hfirst i
        obtain rfl := Option.some.inj hfirst
        rw [h.unset hsum, insert_empty_eq, Finset.sum_singleton, hmasked]
    | some sum =>
      have hsize : (round.masked crypto p).length = sum.length :=
        (Round.length_masked p).trans (h.length sum hsum).symm
      simp only [hsize, ne_eq, not_true, if_false]
      refine ⟨h.expected, hinsert, nofun, ?_, ?_⟩
      · rintro _ hadd
        obtain rfl := Option.some.inj hadd
        simp [vectorAdd, hsize, h.length sum hsum]
      · rintro _ hadd i
        obtain rfl := Option.some.inj hadd
        rw [getD_vectorAdd hsize.symm, h.coordinates sum hsum i, Finset.sum_insert hreported,
          hmasked, add_comm]

theorem Collected.submitAll {agg : SecureAggregator} (h : Collected crypto round [] agg)
    {attempts : List (String × List Word)} (hhonest : round.Honest crypto attempts) :
    Collected crypto round (attempts.map Prod.fst) (agg.submitAll attempts) := by
  unfold SecureAggregator.submitAll
  induction attempts using List.reverseRecOn with
  | nil => exact h
  | append_singleton attempts attempt ih =>
    have hbefore := ih fun a ha => hhonest a (List.mem_append_left _ ha)
    have hlast := hhonest attempt (List.mem_append_right _ (List.mem_singleton_self attempt))
    rw [List.foldl_append, List.map_append]
    exact hbefore.submit hlast

theorem Collected.runningSum_eq {seen : List String} {agg : SecureAggregator}
    (h : Collected crypto round seen agg) (hall : round.ids ⊆ seen) :
    agg.runningSum = some round.encodedSum := by
  have hreported : agg.reported = round.ids.toFinset := by
    rw [h.reported, Finset.filter_true_of_mem]
    exact fun id hid => hall (List.mem_toFinset.mp hid)
  cases hsum : agg.runningSum with
  | none =>
    have hempty := h.unset hsum
    rw [hreported, List.toFinset_eq_empty_iff, Round.ids, List.map_eq_nil_iff] at hempty
    have henough := round.enough
    rw [hempty, List.length_nil] at henough
    exact absurd henough (by decide)
  | some sum =>
    have hlength := h.length sum hsum
    congr 1
    apply List.ext_getElem
    · rw [hlength, Round.encodedSum, List.length_map, List.length_range]
    · intro i hi hi'
      have hcoord : sum.getD i 0 = (round.ids.map fun id =>
          (round.maskedBy crypto id).getD i 0).sum := by
        rw [h.coordinates sum hsum i, hreported, List.sum_toFinset _ Round.nodup_ids]
      have hmasked : (round.ids.map fun id => (round.maskedBy crypto id).getD i 0) =
          round.participants.map fun p => (round.masked crypto p).getD i 0 := by
        rw [Round.ids, List.map_map]
        exact List.map_congr_left fun p hp => by
          rw [Function.comp_apply, Round.maskedBy_of_mem hp]
      rw [hmasked, Round.sum_masked, List.getD_eq_getElem _ _ hi] at hcoord
      rw [hcoord]
      simp [Round.encodedSum]

end

theorem secure_aggregation {size : ℕ} (crypto : Cryptography Private Public Secret)
    (round : Round Private size) :
    ∃ agg, SecureAggregator.new round.ids round.roundId = .ok agg ∧
      (∀ attempts, round.Honest crypto attempts →
        (round.ids ⊆ attempts.map Prod.fst →
          (agg.submitAll attempts).runningSum = some round.encodedSum ∧
          (agg.submitAll attempts).aggregate = .ok (decode round.encodedSum)) ∧
        (¬ round.ids ⊆ attempts.map Prod.fst → ∃ missing,
          (agg.submitAll attempts).aggregate = .error (.missingParticipants missing))) ∧
      ∀ (agg : SecureAggregator) (id : String) (masked : List Word),
        (agg.submit id masked).1 ≠ .ok () → (agg.submit id masked).2 = agg := by
  have hcard : ¬ round.ids.toFinset.card < MIN_PARTICIPANTS := by
    rw [List.toFinset_card_of_nodup Round.nodup_ids, Round.ids, List.length_map]
    exact not_lt.mpr round.enough
  refine ⟨_, if_neg hcard, fun attempts hhonest => ?_, fun agg id masked => submit_rejected⟩
  have hcollected : Collected crypto round (attempts.map Prod.fst)
      (SecureAggregator.submitAll ⟨round.roundId, round.ids.toFinset, ∅, none⟩ attempts) := by
    refine Collected.submitAll ⟨rfl, ?_, fun _ => rfl, ?_, ?_⟩ hhonest
    · simp
    · intro sum hsum
      cases hsum
    · intro sum hsum
      cases hsum
  have hmissing : (SecureAggregator.submitAll ⟨round.roundId, round.ids.toFinset, ∅, none⟩
      attempts).expected \ (SecureAggregator.submitAll ⟨round.roundId, round.ids.toFinset, ∅, none⟩
        attempts).reported = round.ids.toFinset.filter fun id => id ∉ attempts.map Prod.fst := by
    rw [hcollected.expected, hcollected.reported, Finset.filter_not]
  unfold SecureAggregator.aggregate
  rw [hmissing]
  constructor
  · intro hall
    have hnone : ¬ (round.ids.toFinset.filter fun id => id ∉ attempts.map Prod.fst).Nonempty := by
      rintro ⟨id, hid⟩
      obtain ⟨hid, hunseen⟩ := Finset.mem_filter.mp hid
      exact hunseen (hall (List.mem_toFinset.mp hid))
    have hsum := hcollected.runningSum_eq hall
    simp only [if_neg hnone, hsum]
    exact ⟨trivial, trivial⟩
  · intro hsome
    obtain ⟨id, hid, hunseen⟩ := Set.not_subset.mp hsome
    have hnonempty : (round.ids.toFinset.filter fun id => id ∉ attempts.map Prod.fst).Nonempty :=
      ⟨id, Finset.mem_filter.mpr ⟨List.mem_toFinset.mpr hid, hunseen⟩⟩
    exact ⟨_, if_pos hnonempty⟩

def trioPublicKeys : List ℕ :=
  [0xa4e09292b651c278b9772c569f5fa9bb13d906b46ab68c9df9dc2b4409f8a209,
   0xce8d3ad1ccb633ec7b70c17814a5c76ecd029685050d344745ba05870e587d59,
   0x5dfedd3b6bd47f6fa28ee15d969d5bb0ea53774d488bdaf9df1c6e0124b3ef22]

def trioSecrets : List (List ℕ) :=
  [[0xf311d440a5f15fac9cbdc78fbb90b63a6c6880148e79159dd258f036bf2f792c,
    0x2ed76ab549b1e73c031eb49c9448f0798aea81b698279a0c3dc3e49fbfc4b953,
    0xb0190541a2abb8bc163b6eef0fae7ba0179004b444326f73809563164d47c521],
   [0x2ed76ab549b1e73c031eb49c9448f0798aea81b698279a0c3dc3e49fbfc4b953,
    0xacb1f256815afb1d7c1bc0db3aa6727aab4215ca4cd116e1f88be1a8a4b5507a,
    0x7c425a51f6a7f2e60012b0a34dd6511017807708b502ee66a2a247f171fda96c],
   [0xb0190541a2abb8bc163b6eef0fae7ba0179004b444326f73809563164d47c521,
    0x7c425a51f6a7f2e60012b0a34dd6511017807708b502ee66a2a247f171fda96c,
    0x72a93413650c6f912dbcc425a957c0be31d27778175c3bf293293a37c888c6c]]

/-- The seeds that HKDF derives from the secrets of two participants for round `r1`. -/
def trioSeeds : List (ℕ × ℕ) :=
  [(0x2ed76ab549b1e73c031eb49c9448f0798aea81b698279a0c3dc3e49fbfc4b953,
    0x1b1431b1c6ddb711fc949e262325c0ce5d13a9c4f08fe686ea5d1de159fcf938),
   (0xb0190541a2abb8bc163b6eef0fae7ba0179004b444326f73809563164d47c521,
    0xd7b1f73c803c8a7a27e5333a0876cecdf094a52ed90fe23478a8e538a428804d),
   (0x7c425a51f6a7f2e60012b0a34dd6511017807708b502ee66a2a247f171fda96c,
    0x5bddc515f804a5faf5f0cb294e3eaed3b0c1d1bbbada404f30aaca458eac3d74)]

def trioDraws : List (ℕ × Word) :=
  [(0x1b1431b1c6ddb711fc949e262325c0ce5d13a9c4f08fe686ea5d1de159fcf938, 0xfc42e92e8c9243f7),
   (0xd7b1f73c803c8a7a27e5333a0876cecdf094a52ed90fe23478a8e538a428804d, 0x8bb5f1a653b66dc4),
   (0x5bddc515f804a5faf5f0cb294e3eaed3b0c1d1bbbada404f30aaca458eac3d74, 0xf76076d6b1f18c98)]

def trioCryptography : Cryptography (Fin 3) ℕ ℕ where
  publicKey a := trioPublicKeys.getD a 0
  exchange a key := (trioSecrets.getD a []).getD (trioPublicKeys.idxOf key) 0
  exchange_comm := by decide
  hkdf info secret :=
    if info = "ledgerlens-secagg:r1" then toBigEndian 32 ((trioSeeds.lookup secret).getD 0) else []
  integers seed size :=
    if size = 1 then [(trioDraws.lookup seed).getD 0] else List.replicate size 0
  length_integers seed size := by
    by_cases hsize : size = 1 <;> simp [hsize]

def trioRound : Round (Fin 3) 1 where
  participants := [⟨"a", 0⟩, ⟨"b", 1⟩, ⟨"c", 2⟩]
  nodup := by decide
  enough := by decide
  roundId := "r1"
  update id :=
    if id = "a" then ⟨[3 / 2], rfl, by decide +kernel⟩ else ⟨[-1 / 4], rfl, by decide +kernel⟩

/-- Out of order, one of them twice, and a stranger. -/
def trioAttempts : List (String × List Word) :=
  [("c", trioRound.masked trioCryptography ⟨"c", 2⟩),
   ("a", trioRound.masked trioCryptography ⟨"a", 0⟩),
   ("z", [1]),
   ("c", trioRound.masked trioCryptography ⟨"c", 2⟩),
   ("b", trioRound.masked trioCryptography ⟨"b", 1⟩)]

theorem secure_aggregation_trio : ∃ agg, SecureAggregator.new trioRound.ids "r1" = .ok agg ∧
    (agg.submitAll trioAttempts).aggregate = .ok [1] ∧
    (agg.submit "z" [1]).2 = agg := by
  obtain ⟨agg, hnew, hround, hrejected⟩ := secure_aggregation trioCryptography trioRound
  have hhonest : trioRound.Honest trioCryptography trioAttempts := by
    unfold Round.Honest
    decide +kernel
  have hids : trioRound.ids ⊆ trioAttempts.map Prod.fst := by decide
  have hsum : decode trioRound.encodedSum = [1] := by decide +kernel
  have hstranger : (agg.submit "z" [1]).1 ≠ .ok () := by
    obtain rfl := Except.ok.inj hnew
    decide
  refine ⟨agg, hnew, ?_, hrejected agg "z" [1] hstranger⟩
  rw [← hsum]
  exact ((hround trioAttempts hhonest).1 hids).2

end SecureAggregation
