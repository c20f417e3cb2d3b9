import LedgerLens.AmmSessions
import Mathlib.Data.Finset.Basic

/-!
# Batches of pool operations

What `ingest_operations` of `detection/amm_engine.py` finds when a stream is fed to it in batches.
An engine is looked at key by key: the operations and trades of one wallet in one pool decide the
sessions and the anomalies there.
-/
namespace AmmBatches

open AmmSessions Dictionaries

abbrev Found := List AMMPoolAnomaly × Finset (String × String × String)

section Scores

variable {config : AMMConfig}

theorem scoreSession_open {s : AMMSession} (hopen : s.withdrawTime = none) (found : Found) :
    scoreSession config found s = found := by
  have hnone : anomalyOf config s = none := by
    rw [anomalyOf, hopen]
  rw [scoreSession, hnone]
  split <;> rfl

theorem foldl_scoreSession_closed (sessions : List AMMSession) (found : Found) :
    sessions.foldl (scoreSession config) found =
      (closed sessions).foldl (scoreSession config) found := by
  induction sessions generalizing found with
  | nil => rfl
  | cons s sessions ih =>
    rw [closed]
    by_cases hopen : s.withdrawTime = none
    · rw [List.filter_cons_of_neg (by simpa using hopen), List.foldl_cons,
        scoreSession_open hopen, ih, closed]
    · rw [List.filter_cons_of_pos (by simpa using hopen), List.foldl_cons, List.foldl_cons, ih,
        closed]

def Settled (config : AMMConfig) (found : Found) (s : AMMSession) : Prop :=
  s.dedupKey ∈ found.2 ∨ anomalyOf config s = none

theorem scoreSession_settled {found : Found} {s : AMMSession} (h : Settled config found s) :
    scoreSession config found s = found := by
  rw [scoreSession]
  rcases h with hseen | hnone
  · rw [if_pos hseen]
  · rw [hnone]
    split <;> rfl

theorem settled_scoreSession (found : Found) (s : AMMSession) :
    Settled config (scoreSession config found s) s := by
  rw [scoreSession]
  split_ifs with hseen
  · exact .inl hseen
  · cases h : anomalyOf config s with
    | none => exact .inr h
    | some a => exact .inl (Finset.mem_insert_self _ _)

theorem Settled.scoreSession {found : Found} {s : AMMSession} (h : Settled config found s)
    (s' : AMMSession) : Settled config (scoreSession config found s') s := by
  refine h.imp_left fun hseen => ?_
  rw [AmmSessions.scoreSession]
  split_ifs
  · exact hseen
  · cases anomalyOf config s' with
    | none => exact hseen
    | some a => exact Finset.mem_insert_of_mem hseen

theorem Settled.foldl {found : Found} {s : AMMSession} (h : Settled config found s)
    (sessions : List AMMSession) :
    Settled config (sessions.foldl (AmmSessions.scoreSession config) found) s := by
  induction sessions generalizing found with
  | nil => exact h
  | cons s' sessions ih => exact ih (h.scoreSession s')

theorem settled_foldl {sessions : List AMMSession} {s : AMMSession} (hs : s ∈ sessions)
    (found : Found) : Settled config (sessions.foldl (scoreSession config) found) s := by
  induction sessions generalizing found with
  | nil => cases hs
  | cons s' sessions ih =>
    rcases List.mem_cons.mp hs with rfl | hs
    · exact (settled_scoreSession found s).foldl sessions
    · exact ih hs _

theorem foldl_scoreSession_settled {sessions : List AMMSession} {found : Found}
    (h : ∀ s ∈ sessions, Settled config found s) :
    sessions.foldl (scoreSession config) found = found := by
  induction sessions with
  | nil => rfl
  | cons s sessions ih =>
    rw [List.foldl_cons, scoreSession_settled (h s List.mem_cons_self)]
    exact ih fun s' hs' => h s' (List.mem_cons_of_mem s hs')

theorem foldl_scoreSession_prefix {sessions sessions' : List AMMSession}
    (h : closed sessions <+: closed sessions') (found : Found) :
    sessions'.foldl (scoreSession config) (sessions.foldl (scoreSession config) found) =
      sessions'.foldl (scoreSession config) found := by
  obtain ⟨later, hlater⟩ := h
  rw [foldl_scoreSession_closed sessions, foldl_scoreSession_closed sessions',
    foldl_scoreSession_closed sessions' found, ← hlater, List.foldl_append, List.foldl_append,
    foldl_scoreSession_settled fun s hs => settled_foldl hs found]

def foundAt (key : Key) (found : Found) : Found :=
  (found.1.filter fun a => a.key = key, found.2.filter fun d => (d.1, d.2.1) = key)

theorem key_anomalyOf {s : AMMSession} {a : AMMPoolAnomaly} (h : anomalyOf config s = some a) :
    a.key = s.key := by
  rw [anomalyOf] at h
  cases hw : s.withdrawTime with
  | none =>
    rw [hw] at h
    cases h
  | some w =>
    simp only [hw, Option.ite_none_right_eq_some] at h
    rw [← Option.some.inj h.2]
    rfl

theorem foundAt_scoreSession_self {key : Key} {s : AMMSession} (hkey : s.key = key)
    (found : Found) :
    foundAt key (scoreSession config found s) = scoreSession config (foundAt key found) s := by
  have hseen : s.dedupKey ∈ (foundAt key found).2 ↔ s.dedupKey ∈ found.2 := by
    rw [foundAt, Finset.mem_filter]
    exact and_iff_left hkey
  rw [scoreSession, scoreSession]
  by_cases h : s.dedupKey ∈ found.2
  · rw [if_pos h, if_pos (hseen.mpr h)]
  · rw [if_neg h, if_neg (mt hseen.mp h)]
    cases ha : anomalyOf config s with
    | none => rfl
    | some a =>
      have hsame : a.key = key := (key_anomalyOf ha).trans hkey
      apply Prod.ext
      · simp [foundAt, List.filter_append, hsame]
      · exact (Finset.filter_insert _ _ _).trans (if_pos hkey)

theorem foundAt_scoreSession_of_ne {key : Key} {s : AMMSession} (hkey : s.key ≠ key)
    (found : Found) : foundAt key (scoreSession config found s) = foundAt key found := by
  rw [scoreSession]
  split_ifs
  · rfl
  · cases ha : anomalyOf config s with
    | none => rfl
    | some a =>
      have hother : a.key ≠ key := fun h => hkey ((key_anomalyOf ha).symm.trans h)
      apply Prod.ext
      · simp [foundAt, List.filter_append, hother]
      · exact (Finset.filter_insert _ _ _).trans (if_neg hkey)

theorem foundAt_foldl (key : Key) (sessions : List AMMSession) (found : Found) :
    foundAt key (sessions.foldl (scoreSession config) found) =
      (sessions.filter fun s => s.key = key).foldl (scoreSession config) (foundAt key found) := by
  induction sessions generalizing found with
  | nil => rfl
  | cons s sessions ih =>
    rw [List.foldl_cons, ih]
    by_cases hkey : s.key = key
    · rw [foundAt_scoreSession_self hkey, List.filter_cons_of_pos (by simpa using hkey),
        List.foldl_cons]
    · rw [foundAt_scoreSession_of_ne hkey, List.filter_cons_of_neg (by simpa using hkey)]

theorem perm_of_foundAt {found found' : Found} (h : ∀ key, foundAt key found = foundAt key found') :
    found.1.Perm found'.1 := by
  rw [List.perm_iff_count]
  intro a
  have hfilter := congrArg Prod.fst (h a.key)
  rw [← List.count_filter (p := fun b => decide (b.key = a.key)) (by simp),
    ← List.count_filter (p := fun b => decide (b.key = a.key)) (l := found'.1) (by simp)]
  exact congrArg (List.count a) hfilter

end Scores

def sessionsAt (d : Dictionary Key (List AMMSession)) (key : Key) : List AMMSession :=
  (d.get? key).getD []

theorem sessionsAt_set (d : Dictionary Key (List AMMSession)) (key key' : Key)
    (l : List AMMSession) :
    sessionsAt (d.set key l) key' = if key = key' then l else sessionsAt d key' := by
  rw [sessionsAt]
  split_ifs with hkey
  · rw [hkey, Dictionary.get?_set_self]
    rfl
  · rw [Dictionary.get?_set_of_ne d (Ne.symm hkey)]
    rfl

theorem sessionsAt_foldl_stepEvent (d : Dictionary Key (List AMMSession)) (events : List Event)
    (key : Key) :
    sessionsAt (events.foldl stepEvent d) key =
      (events.filter fun e => e.key = key).foldl applyEvent (sessionsAt d key) := by
  induction events generalizing d with
  | nil => rfl
  | cons e events ih =>
    rw [List.foldl_cons, ih, stepEvent, sessionsAt_set]
    by_cases hkey : e.key = key
    · rw [if_pos hkey, List.filter_cons_of_pos (by simpa using hkey), List.foldl_cons, ← hkey]
      rfl
    · rw [if_neg hkey, List.filter_cons_of_neg (by simpa using hkey)]

section Engine

variable {fromisoformat : String → Option Timestamp} {config : AMMConfig}

def OfKey (key : Key) (t : PoolTrade) : Prop := isPoolId t.key.2 = true ∧ t.key = key

instance (key : Key) (t : PoolTrade) : Decidable (OfKey key t) :=
  inferInstanceAs (Decidable (_ ∧ _))

theorem sessionsAt_stepTrade (d : Dictionary Key (List AMMSession)) (t : PoolTrade) (key : Key) :
    sessionsAt (stepTrade fromisoformat d t) key =
      if OfKey key t then (sessionsAt d key).map fun s => s.attach fromisoformat t
      else sessionsAt d key := by
  rw [stepTrade]
  by_cases hpool : isPoolId t.key.2 = true
  · rw [if_neg (by simp [hpool])]
    by_cases hkey : t.key = key
    · rw [if_pos ⟨hpool, hkey⟩, ← hkey]
      cases h : d.get? t.key with
      | none => simp [sessionsAt, h]
      | some l => simp [sessionsAt, h]
    · rw [if_neg fun h => hkey h.2]
      cases h : d.get? t.key with
      | none => rfl
      | some l =>
        dsimp only
        rw [sessionsAt_set, if_neg hkey]
  · rw [if_pos (by simpa using hpool), if_neg fun h => hpool h.1]

theorem sessionsAt_foldl_stepTrade (d : Dictionary Key (List AMMSession))
    (trades : List PoolTrade) (key : Key) :
    sessionsAt (trades.foldl (stepTrade fromisoformat) d) key =
      (sessionsAt d key).map fun s =>
        s.attachAll fromisoformat (trades.filter fun t => OfKey key t) := by
  induction trades generalizing d with
  | nil =>
    rw [List.foldl_nil, List.filter_nil]
    exact ((List.map_congr_left fun s _ => attachAll_nil s).trans (List.map_id' _)).symm
  | cons t trades ih =>
    rw [List.foldl_cons, ih, sessionsAt_stepTrade]
    by_cases hkey : OfKey key t
    · rw [if_pos hkey, List.filter_cons_of_pos (by simpa using hkey), List.map_map]
      refine List.map_congr_left fun s _ => ?_
      rw [Function.comp_apply, ← foldl_attach, ← foldl_attach, List.foldl_cons]
    · rw [if_neg hkey, List.filter_cons_of_neg (by simpa using hkey)]

theorem filter_flatMap_entries {entries : List (Key × List AMMSession)}
    (hnodup : (entries.map Prod.fst).Nodup)
    (hkeys : ∀ entry ∈ entries, ∀ s ∈ entry.2, s.key = entry.1) (key : Key) :
    ((entries.flatMap Prod.snd).filter fun s => s.key = key) =
      ((entries.find? fun entry => entry.1 = key).map Prod.snd).getD [] := by
  induction entries with
  | nil => rfl
  | cons entry entries ih =>
    rw [List.map_cons, List.nodup_cons] at hnodup
    have hrest := ih hnodup.2 fun entry' h => hkeys entry' (List.mem_cons_of_mem entry h)
    have hentry := hkeys entry List.mem_cons_self
    rw [List.flatMap_cons, List.filter_append, hrest]
    by_cases hkey : entry.1 = key
    · have hnone : (entries.find? fun entry' => decide (entry'.1 = key)) = none := by
        rw [List.find?_eq_none]
        intro entry' h hkey'
        have hsame : entry'.1 = entry.1 := (of_decide_eq_true hkey').trans hkey.symm
        exact hnodup.1 (hsame ▸ List.mem_map_of_mem h)
      rw [List.find?_cons_of_pos (by simpa using hkey), hnone, Option.map_none, Option.getD_none,
        List.append_nil]
      exact List.filter_eq_self.mpr fun s hs => by simpa using (hentry s hs).trans hkey
    · have hnil : (entry.2.filter fun s => decide (s.key = key)) = [] :=
        List.filter_eq_nil_iff.mpr fun s hs hkey' =>
          hkey ((hentry s hs).symm.trans (of_decide_eq_true hkey'))
      rw [List.find?_cons_of_neg (by simpa using hkey), hnil, List.nil_append]

theorem filter_flatMap_sessions {d : Dictionary Key (List AMMSession)}
    (hkeys : ∀ key, ∀ s ∈ sessionsAt d key, s.key = key) (key : Key) :
    ((d.entries.flatMap Prod.snd).filter fun s => s.key = key) = sessionsAt d key := by
  refine filter_flatMap_entries d.nodup (fun entry hentry s hs => hkeys entry.1 s ?_) key
  rw [sessionsAt, Dictionary.get?_eq_some.mpr hentry]
  exact hs

end Engine

inductive Item where
  | operation (op : Operation)
  | trade (t : PoolTrade)
  deriving DecidableEq, Repr

def Item.operation? : Item → Option Operation
  | operation op => some op
  | trade _ => none

def Item.trade? : Item → Option PoolTrade
  | operation _ => none
  | trade t => some t

def operations (items : List Item) : List Operation := items.filterMap Item.operation?

def trades (items : List Item) : List PoolTrade := items.filterMap Item.trade?

theorem operations_append (items items' : List Item) :
    operations (items ++ items') = operations items ++ operations items' :=
  List.filterMap_append

theorem trades_append (items items' : List Item) :
    trades (items ++ items') = trades items ++ trades items' :=
  List.filterMap_append

section Streams

variable (fromisoformat : String → Option Timestamp)

def Item.time : Item → Option Timestamp
  | operation op => op.time fromisoformat
  | trade t => t.time fromisoformat

/-- The times of a stream do not go back, and its paging tokens are increasing decimals. -/
structure Ordered (stream : List Item) : Prop where
  times : stream.Pairwise fun i i' => ∀ ts ts', i.time fromisoformat = some ts →
    i'.time fromisoformat = some ts' → ts.instant ≤ ts'.instant
  tokens : (operations stream).Pairwise fun op op' => ∃ n n' : ℕ,
    op.pagingToken = toString n ∧ op'.pagingToken = toString n' ∧ n < n'

def readAt (key : Key) (op : Operation) : Option Event :=
  (op.read fromisoformat).filter fun e => e.key = key

def eventsOf (key : Key) (items : List Item) : List Event :=
  (sortOperations (operations items)).filterMap (readAt fromisoformat key)

def tradesOf (key : Key) (items : List Item) : List PoolTrade :=
  (trades items).filter fun t => OfKey key t

def sessionsOf (key : Key) (items : List Item) : List AMMSession :=
  (eventsOf fromisoformat key items).foldl applyEvent []

/-- At one key the tokens before a cut do not come after those behind it as texts. -/
def InTokenOrder (earlier batch : List Item) : Prop :=
  ∀ key, ∀ op ∈ operations earlier, ∀ op' ∈ operations batch,
    (readAt fromisoformat key op).isSome → (readAt fromisoformat key op').isSome →
      op.pagingToken ≤ op'.pagingToken

/-- The cut between the items comes between no two that have to be seen together: the tokens
stay in order, no trade before it has the time of a deposit behind it, none behind it has the time
of the withdrawal that closed a session before it, and no such session is dropped. -/
structure Apart (earlier batch : List Item) : Prop where
  tokens : InTokenOrder fromisoformat earlier batch
  deposits : ∀ t ∈ trades earlier, ∀ op ∈ operations batch, ∀ e,
    readAt fromisoformat t.key op = some e → e.deposit = true →
      ∀ ts, t.time fromisoformat = some ts → ts.instant ≠ e.time.instant
  withdrawals : ∀ t ∈ trades batch, ∀ s ∈ sessionsOf fromisoformat t.key earlier,
    ∀ w, s.withdrawTime = some w →
      ∀ ts, t.time fromisoformat = some ts → ts.instant ≠ w.instant
  room : ∀ key, closed (sessionsOf fromisoformat key earlier) = [] ∨
    (sessionsOf fromisoformat key earlier).length +
      (eventsOf fromisoformat key batch).countP Event.deposit ≤ MAX_SESSIONS_PER_WALLET

def CutsApart (batches : List (List Item)) : Prop :=
  ∀ before batch after, batches = before ++ batch :: after →
    Apart fromisoformat before.flatten batch

variable {fromisoformat}

theorem key_of_readAt {key : Key} {op : Operation} {e : Event}
    (h : readAt fromisoformat key op = some e) : e.key = key :=
  of_decide_eq_true (Option.filter_eq_some_iff.mp h).2

theorem time_of_readAt {key : Key} {op : Operation} {e : Event}
    (h : readAt fromisoformat key op = some e) : op.time fromisoformat = some e.time := by
  have hread := (Option.filter_eq_some_iff.mp h).1
  rw [Operation.read] at hread
  split at hread
  · cases hread
  · cases htime : op.time fromisoformat with
    | none =>
      rw [htime] at hread
      cases hread
    | some time =>
      simp only [htime] at hread
      split_ifs at hread
      · rw [← Option.some.inj hread]
      · rw [← Option.some.inj hread]

theorem mem_eventsOf {key : Key} {items : List Item} {e : Event} :
    e ∈ eventsOf fromisoformat key items ↔
      ∃ op ∈ operations items, readAt fromisoformat key op = some e := by
  rw [eventsOf, List.mem_filterMap]
  simp only [sortOperations, List.mem_insertionSort]

theorem Ordered.eq_of_token {stream : List Item} (hordered : Ordered fromisoformat stream)
    {op op' : Operation} (hop : op ∈ operations stream) (hop' : op' ∈ operations stream)
    (htoken : op.pagingToken = op'.pagingToken) : op = op' := by
  have hnodup : ((operations stream).map Operation.pagingToken).Nodup := by
    rw [List.Nodup, List.pairwise_map]
    refine hordered.tokens.imp ?_
    rintro o o' ⟨n, n', hn, hn', hlt⟩ heq
    have hdigits : Nat.toDigits 10 n = Nat.toDigits 10 n' := by
      have hrepr : (toString n).toList = (toString n').toList := by rw [← hn, ← hn', heq]
      exact (Nat.toList_repr.symm.trans hrepr).trans Nat.toList_repr
    have hsame := congrArg (Nat.ofDigitChars 10 · 0) hdigits
    simp only [Nat.ofDigitChars_ten_toDigits] at hsame
    exact hlt.ne hsame
  exact List.inj_on_of_nodup_map hnodup hop hop' htoken

def TokenLe (op op' : Operation) : Prop := op.pagingToken ≤ op'.pagingToken

instance : Std.Total TokenLe := ⟨fun op op' => le_total op.pagingToken op'.pagingToken⟩

instance : IsTrans Operation TokenLe := ⟨fun _ _ _ h h' => le_trans h h'⟩

theorem pairwise_sortOperations (ops : List Operation) :
    (sortOperations ops).Pairwise TokenLe :=
  List.pairwise_insertionSort (fun op op' : Operation => op.pagingToken ≤ op'.pagingToken) ops

section Sorting

variable {earlier batch : List Item}

theorem filter_sortOperations_append (hordered : Ordered fromisoformat (earlier ++ batch))
    (htokens : InTokenOrder fromisoformat earlier batch) (key : Key) :
    ((sortOperations (operations (earlier ++ batch))).filter fun op =>
        (readAt fromisoformat key op).isSome) =
      ((sortOperations (operations earlier)).filter fun op =>
        (readAt fromisoformat key op).isSome) ++
      (sortOperations (operations batch)).filter fun op =>
        (readAt fromisoformat key op).isSome := by
  have hmem : ∀ {op : Operation} {items : List Item},
      op ∈ sortOperations (operations items) → op ∈ operations items :=
    fun h => (List.mem_insertionSort _).mp h
  have hperm : (sortOperations (operations (earlier ++ batch))).Perm
      (sortOperations (operations earlier) ++ sortOperations (operations batch)) := by
    rw [operations_append]
    exact (List.perm_insertionSort _ _).trans
      ((List.perm_insertionSort _ _).symm.append (List.perm_insertionSort _ _).symm)
  have hcut : ∀ op ∈ (sortOperations (operations earlier)).filter
      (fun op => (readAt fromisoformat key op).isSome),
      ∀ op' ∈ (sortOperations (operations batch)).filter
        (fun op => (readAt fromisoformat key op).isSome), TokenLe op op' := by
    intro op hop op' hop'
    obtain ⟨hop, hsome⟩ := List.mem_filter.mp hop
    obtain ⟨hop', hsome'⟩ := List.mem_filter.mp hop'
    exact htokens key op (hmem hop) op' (hmem hop') hsome hsome'
  have hanti : ∀ op op', op ∈ (sortOperations (operations (earlier ++ batch))).filter
      (fun op => (readAt fromisoformat key op).isSome) →
      op' ∈ (sortOperations (operations earlier) ++ sortOperations (operations batch)).filter
        (fun op => (readAt fromisoformat key op).isSome) →
      TokenLe op op' → TokenLe op' op → op = op' := by
    intro op op' hop hop' hle hle'
    have hin := hmem (List.mem_filter.mp hop).1
    have hin' := hmem (hperm.mem_iff.mpr (List.mem_filter.mp hop').1)
    exact hordered.eq_of_token hin hin' (le_antisymm hle hle')
  rw [← List.filter_append]
  refine List.Perm.eq_of_pairwise hanti ((pairwise_sortOperations _).filter _) ?_
    (hperm.filter _)
  rw [List.filter_append, List.pairwise_append]
  exact ⟨(pairwise_sortOperations _).filter _, (pairwise_sortOperations _).filter _, hcut⟩

theorem filterMap_readAt (key : Key) (ops : List Operation) :
    (ops.filter fun op => (readAt fromisoformat key op).isSome).filterMap
      (readAt fromisoformat key) = ops.filterMap (readAt fromisoformat key) := by
  rw [List.filterMap_filter]
  refine List.filterMap_congr fun op _ => ?_
  split_ifs with hsome
  · rfl
  · exact (Option.not_isSome_iff_eq_none.mp hsome).symm

theorem eventsOf_append (hordered : Ordered fromisoformat (earlier ++ batch))
    (htokens : InTokenOrder fromisoformat earlier batch) (key : Key) :
    eventsOf fromisoformat key (earlier ++ batch) =
      eventsOf fromisoformat key earlier ++ eventsOf fromisoformat key batch := by
  rw [eventsOf, ← filterMap_readAt, filter_sortOperations_append hordered htokens,
    List.filterMap_append, filterMap_readAt, filterMap_readAt]
  rfl

theorem sessionsOf_append (hordered : Ordered fromisoformat (earlier ++ batch))
    (htokens : InTokenOrder fromisoformat earlier batch) (key : Key) :
    sessionsOf fromisoformat key (earlier ++ batch) =
      (eventsOf fromisoformat key batch).foldl applyEvent
        (sessionsOf fromisoformat key earlier) := by
  rw [sessionsOf, eventsOf_append hordered htokens, List.foldl_append, sessionsOf]

theorem tradesOf_append (key : Key) :
    tradesOf key (earlier ++ batch) = tradesOf key earlier ++ tradesOf key batch := by
  rw [tradesOf, trades_append, List.filter_append, tradesOf, tradesOf]

theorem before_eventsOf (hordered : Ordered fromisoformat (earlier ++ batch))
    (hapart : Apart fromisoformat earlier batch) {key : Key} {e : Event}
    (he : e ∈ eventsOf fromisoformat key batch) :
    Before fromisoformat (tradesOf key earlier) e := by
  obtain ⟨op, hop, hread⟩ := mem_eventsOf.mp he
  intro t ht ts hts
  obtain ⟨htrade, hkey⟩ := List.mem_filter.mp ht
  obtain ⟨-, rfl⟩ := of_decide_eq_true hkey
  obtain ⟨i, hi, hit⟩ := List.mem_filterMap.mp htrade
  obtain ⟨i', hi', hiop⟩ := List.mem_filterMap.mp hop
  have hle := (List.pairwise_append.mp hordered.times).2.2 i hi i' hi' ts e.time
  refine ⟨hle ?_ ?_, fun hdeposit => hapart.deposits t htrade op hop e hread hdeposit ts hts⟩
  · cases i with
    | operation => cases hit
    | trade => exact Option.some.inj hit ▸ hts
  · cases i' with
    | operation => exact Option.some.inj hiop ▸ time_of_readAt hread
    | trade => cases hiop

theorem room_of_deposits (hordered : Ordered fromisoformat (earlier ++ batch))
    (htokens : InTokenOrder fromisoformat earlier batch) {key : Key}
    (hfew : (eventsOf fromisoformat key (earlier ++ batch)).countP Event.deposit ≤
      MAX_SESSIONS_PER_WALLET) :
    (sessionsOf fromisoformat key earlier).length +
      (eventsOf fromisoformat key batch).countP Event.deposit ≤ MAX_SESSIONS_PER_WALLET := by
  rw [eventsOf_append hordered htokens, List.countP_append] at hfew
  have hlength := length_foldl_applyEvent_le (eventsOf fromisoformat key earlier) []
  rw [List.length_nil, Nat.zero_add] at hlength
  exact (Nat.add_le_add_right hlength _).trans hfew

theorem Apart.closed_prefix (hordered : Ordered fromisoformat (earlier ++ batch))
    (hapart : Apart fromisoformat earlier batch) (key : Key) :
    closed (sessionsOf fromisoformat key earlier) <+:
      closed (sessionsOf fromisoformat key (earlier ++ batch)) := by
  rw [sessionsOf_append hordered hapart.tokens]
  rcases hapart.room key with hnone | hroom
  · rw [hnone]
    exact List.nil_prefix
  · exact closed_foldl (Fifo.foldl .nil _) hroom

end Sorting

theorem key_of_mem_sessionsOf {key : Key} {items : List Item} :
    ∀ s ∈ sessionsOf fromisoformat key items, s.key = key := by
  refine forall_mem_foldl (fun e he => ?_) (fun _ _ _ hs => hs) (fun s hs => by cases hs)
  obtain ⟨op, -, hread⟩ := mem_eventsOf.mp he
  exact key_of_readAt hread

theorem withdrawTime_mem {key : Key} {items : List Item} :
    ∀ s ∈ sessionsOf fromisoformat key items, ∀ w, s.withdrawTime = some w →
      ∃ e ∈ eventsOf fromisoformat key items, e.time = w := by
  refine forall_mem_foldl (fun e he w hw => ?_) (fun e he s _ w hw => ?_) (fun s hs => by cases hs)
  · cases hw
  · exact ⟨e, he, Option.some.inj hw⟩

theorem not_spans_of_closed {earlier batch : List Item}
    (hordered : Ordered fromisoformat (earlier ++ batch))
    (hapart : Apart fromisoformat earlier batch) {key : Key} {s : AMMSession}
    (hs : s ∈ closed (sessionsOf fromisoformat key earlier)) :
    ∀ t ∈ tradesOf key batch, ¬ s.Spans fromisoformat t := by
  obtain ⟨hs, hclosed⟩ := List.mem_filter.mp hs
  obtain ⟨w, hw⟩ := Option.ne_none_iff_exists'.mp (of_decide_eq_true hclosed)
  rintro t ht ⟨ts, hts, -, hle⟩
  obtain ⟨htrade, hkey⟩ := List.mem_filter.mp ht
  obtain ⟨-, rfl⟩ := of_decide_eq_true hkey
  obtain ⟨e, he, rfl⟩ := withdrawTime_mem s hs w hw
  obtain ⟨op, hop, hread⟩ := mem_eventsOf.mp he
  obtain ⟨i, hi, hiop⟩ := List.mem_filterMap.mp hop
  obtain ⟨i', hi', hit⟩ := List.mem_filterMap.mp htrade
  have hge := (List.pairwise_append.mp hordered.times).2.2 i hi i' hi' e.time ts
  refine hapart.withdrawals t htrade s hs _ hw ts hts (le_antisymm (hle _ hw) (hge ?_ ?_))
  · cases i with
    | operation => exact Option.some.inj hiop ▸ time_of_readAt hread
    | trade => cases hiop
  · cases i' with
    | operation => cases hit
    | trade => exact Option.some.inj hit ▸ hts

section Ingest

variable (fromisoformat) (config : AMMConfig)

def ingest (engine : AMMEngine) (batch : List Item) : AMMEngine :=
  engine.ingestOperations fromisoformat config (operations batch) (trades batch)

structure Faithful (items : List Item) (engine : AMMEngine) : Prop where
  sessions : ∀ key, sessionsAt engine.sessions key =
    (sessionsOf fromisoformat key items).map fun s =>
      s.attachAll fromisoformat (tradesOf key items)
  found : ∀ key, foundAt key (engine.anomalies, engine.seenKeys) =
    (sessionsAt engine.sessions key).foldl (scoreSession config) ([], ∅)

variable {fromisoformat config}

theorem sessionsAt_ingest (engine : AMMEngine) (batch : List Item) (key : Key) :
    sessionsAt (ingest fromisoformat config engine batch).sessions key =
      ((eventsOf fromisoformat key batch).foldl applyEvent (sessionsAt engine.sessions key)).map
        fun s => s.attachAll fromisoformat (tradesOf key batch) := by
  have hevents : (((sortOperations (operations batch)).filterMap
      (Operation.read fromisoformat)).filter fun e => e.key = key) =
      eventsOf fromisoformat key batch := List.filter_filterMap
  exact (sessionsAt_foldl_stepTrade _ _ key).trans
    (by rw [sessionsAt_foldl_stepEvent, hevents]; rfl)

theorem foundAt_ingest {engine : AMMEngine} {batch : List Item}
    (hkeys : ∀ key, ∀ s ∈ sessionsAt (ingest fromisoformat config engine batch).sessions key,
      s.key = key) (key : Key) :
    foundAt key ((ingest fromisoformat config engine batch).anomalies,
        (ingest fromisoformat config engine batch).seenKeys) =
      (sessionsAt (ingest fromisoformat config engine batch).sessions key).foldl
        (scoreSession config) (foundAt key (engine.anomalies, engine.seenKeys)) := by
  rw [← filter_flatMap_sessions hkeys key]
  exact foundAt_foldl key _ _

theorem Faithful.init : Faithful fromisoformat config [] AMMEngine.init :=
  ⟨fun _ => rfl, fun _ => rfl⟩

theorem apart_nil (batch : List Item) : Apart fromisoformat [] batch where
  tokens _ _ h := by cases h
  deposits _ h := by cases h
  withdrawals _ _ _ h := by cases h
  room _ := .inl rfl

theorem cutsApart_pair {first second : List Item} (h : Apart fromisoformat first second) :
    CutsApart fromisoformat [first, second] := by
  rintro (_ | ⟨items, _ | ⟨items', before⟩⟩) batch after hsplit
  · exact apart_nil batch
  · obtain ⟨rfl, hrest⟩ := List.cons.inj hsplit
    obtain ⟨rfl, -⟩ := List.cons.inj hrest
    simpa using h
  · cases before <;> cases hsplit

/-- A batch behind a clean cut leaves the engine faithful. -/
theorem Faithful.ingest {earlier batch : List Item} {engine : AMMEngine}
    (h : Faithful fromisoformat config earlier engine)
    (hordered : Ordered fromisoformat (earlier ++ batch))
    (hapart : Apart fromisoformat earlier batch) :
    Faithful fromisoformat config (earlier ++ batch)
      (AmmBatches.ingest fromisoformat config engine batch) := by
  have hsessions : ∀ key,
      sessionsAt (AmmBatches.ingest fromisoformat config engine batch).sessions key =
        (sessionsOf fromisoformat key (earlier ++ batch)).map fun s =>
          s.attachAll fromisoformat (tradesOf key (earlier ++ batch)) := by
    intro key
    rw [sessionsAt_ingest, h.sessions, foldl_applyEvent_attachAll
      fun e he => before_eventsOf hordered hapart he, ← sessionsOf_append hordered hapart.tokens,
      List.map_map, tradesOf_append]
    exact List.map_congr_left fun s _ => (attachAll_append s _ _).symm
  refine ⟨hsessions, fun key => ?_⟩
  -- the sessions that were closed before keep their trades, and stay in front
  have hprefix : closed (sessionsAt engine.sessions key) <+:
      closed (sessionsAt (AmmBatches.ingest fromisoformat config engine batch).sessions key) := by
    rw [h.sessions, hsessions, closed_map_attachAll, closed_map_attachAll]
    have hkeep : ((closed (sessionsOf fromisoformat key earlier)).map fun s =>
        s.attachAll fromisoformat (tradesOf key earlier)) =
        (closed (sessionsOf fromisoformat key earlier)).map fun s =>
          s.attachAll fromisoformat (tradesOf key (earlier ++ batch)) := by
      refine List.map_congr_left fun s hs => ?_
      rw [tradesOf_append, attachAll_append]
      have hnot : ∀ t ∈ tradesOf key batch,
          ¬ (s.attachAll fromisoformat (tradesOf key earlier)).Spans fromisoformat t :=
        fun t ht => not_spans_of_closed hordered hapart hs t ht
      exact (attachAll_of_not_spans hnot).symm
    rw [hkeep]
    exact (hapart.closed_prefix hordered key).map _
  have hkeys : ∀ key,
      ∀ s ∈ sessionsAt (AmmBatches.ingest fromisoformat config engine batch).sessions key,
        s.key = key := by
    intro key s hs
    rw [hsessions] at hs
    obtain ⟨s', hs', rfl⟩ := List.mem_map.mp hs
    exact key_of_mem_sessionsOf s' hs'
  rw [foundAt_ingest hkeys, h.found, foldl_scoreSession_prefix hprefix]

theorem Ordered.left {items items' : List Item}
    (h : Ordered fromisoformat (items ++ items')) : Ordered fromisoformat items where
  times := (List.pairwise_append.mp h.times).1
  tokens := by
    have htokens := h.tokens
    rw [operations_append] at htokens
    exact (List.pairwise_append.mp htokens).1

theorem faithful_batches {batches : List (List Item)}
    (hordered : Ordered fromisoformat batches.flatten)
    (hapart : CutsApart fromisoformat batches) :
    Faithful fromisoformat config batches.flatten
      (batches.foldl (AmmBatches.ingest fromisoformat config) AMMEngine.init) := by
  induction batches using List.reverseRecOn with
  | nil => exact Faithful.init
  | append_singleton batches batch ih =>
    rw [List.flatten_append, List.flatten_singleton] at hordered ⊢
    rw [List.foldl_append]
    refine (ih hordered.left fun before b after hsplit => ?_).ingest hordered
      (hapart batches batch [] rfl)
    exact hapart before b (after ++ [batch]) (by rw [hsplit]; simp)

theorem faithful_whole {stream : List Item} (hordered : Ordered fromisoformat stream) :
    Faithful fromisoformat config stream
      (AmmBatches.ingest fromisoformat config AMMEngine.init stream) :=
  Faithful.init.ingest hordered (apart_nil stream)

theorem Faithful.perm {items : List Item} {engine engine' : AMMEngine}
    (h : Faithful fromisoformat config items engine)
    (h' : Faithful fromisoformat config items engine') :
    engine.anomalies.Perm engine'.anomalies :=
  @perm_of_foundAt (engine.anomalies, engine.seenKeys) (engine'.anomalies, engine'.seenKeys)
    fun key => by rw [h.found, h'.found, h.sessions, h'.sessions]

end Ingest

section Results

variable (fromisoformat : String → Option Timestamp) (config : AMMConfig)

end Results

section Examples

def poolId : String := "00112233445566778899aabbccddeeff00112233445566778899aabbccddeeff"

def noon : Timestamp := ⟨43200000000, "1970-01-01T12:00:00+00:00"⟩

def minuteLater : Timestamp := ⟨43260000000, "1970-01-01T12:01:00+00:00"⟩

def twoMinutesLater : Timestamp := ⟨43320000000, "1970-01-01T12:02:00+00:00"⟩

def poolOperation (token : ℕ) (type : String) (time : Timestamp) : Operation where
  pagingToken := toString token
  account := some "GWASH"
  liquidityPoolId := some poolId
  type := some (.name type)
  timestamp := some (.datetime time)
  amountA := some 100
  amountB := some 100

def poolTrade (time : Timestamp) : PoolTrade where
  baseAccount := some "GWASH"
  liquidityPoolId := some poolId
  timestamp := some (.datetime time)
  baseAmount := some 5000
  counterAccount := some "GMAKER"

end Examples

end Streams

end AmmBatches
