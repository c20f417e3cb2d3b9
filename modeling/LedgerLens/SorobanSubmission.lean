import LedgerLens.LabelledRuns
import LedgerLens.SorobanPublisher
import Mathlib.Data.Rat.Floor

/-!
# One submission and the ledger

`_execute_with_retries` and `_submit_once` of `detection/soroban_publisher.py` against a server that
answers anything, and a ledger that applies a transaction at any time after it was sent, where its
sequence number is the account's next one.
-/
namespace SorobanSubmission

open LabelledRuns
open SorobanPublisher (Attempt RiskScore afterAttempt executeWithRetries failureText)

structure ZkBundle where
  commitmentHex : String
  pedersenX : ℕ
  pedersenY : ℕ
  deriving DecidableEq, Repr

/-- The parameters of the contract call. -/
structure Invocation where
  wallet : String
  assetPair : String
  score : ℤ
  timestamp : ℤ
  scoreVersion : String
  zkBundle : Option ZkBundle
  deriving DecidableEq, Repr

def invocation (s : RiskScore) (zkBundle : Option ZkBundle) : Invocation where
  wallet := s.wallet
  assetPair := s.assetPair
  score := max 0 (min 100 s.score)
  timestamp := s.timestamp
  scoreVersion := s.scoreVersion
  zkBundle := zkBundle

structure Transaction where
  sequence : ℕ
  fee : ℕ
  invocation : Invocation
  deriving DecidableEq, Repr

def feeMultiplier : Attempt → ℚ
  | .first | .second => 1
  | .feeRetry => 3 / 2

def POLLS : ℕ := 30

/-- Where the call stands: in an attempt before a request to the server, or at its end. -/
inductive Control where
  | load (attempt : Attempt)
  | simulate (attempt : Attempt) (sequence : ℕ)
  | send (attempt : Attempt) (tx : Transaction)
  | poll (attempt : Attempt) (txHash : String) (left : ℕ)
  | returned (result : Except String String)
  deriving DecidableEq

inductive SendAnswer where
  | raises (error : String)
  | refused (error : String)
  | taken (txHash : String)
  deriving DecidableEq, Repr

inductive PollAnswer where
  | raises (error : String)
  | success
  | failed (error : String)
  | notYet
  deriving DecidableEq, Repr

/-- A transaction that the network has, and what became of it on the ledger. -/
structure Sent where
  tx : Transaction
  applied : Option Bool
  deriving DecidableEq, Repr

/-- The call, the account's sequence number on the ledger, and the transactions of the call. -/
structure World where
  control : Control
  sequence : ℕ
  sent : List Sent
  results : Attempt → Option (Except String String)

def World.initial (sequence : ℕ) : World := ⟨.load .first, sequence, [], fun _ => none⟩

/-- The answers of the server, and what happens on the ledger. -/
inductive Event where
  | loadAccount (answer : Except String ℕ)
  | simulate (answer : Except String ℕ)
  | sendTransaction (answer : SendAnswer)
  | getTransaction (answer : PollAnswer)
  | applied (i : ℕ) (succeeds : Bool)
  | otherApplied
  deriving DecidableEq

section Steps

variable (call : Invocation)

def World.finish (w : World) (attempt : Attempt) (result : Except String String) : World :=
  { w with
    control :=
      match afterAttempt attempt result with
      | .inl attempt => .load attempt
      | .inr result => .returned result
    results := Function.update w.results attempt (some result) }

/-- The transaction reaches the network, whatever the server answers to it. -/
def World.transmit (w : World) (tx : Transaction) : World :=
  { w with sent := w.sent ++ [⟨tx, none⟩] }

def orElse (text default : String) : String := if text = "" then default else text

/-- A simulation answers with the least resource fee. -/
def next (w : World) (e : Event) : Option World :=
  match e, w.control with
  | .loadAccount (.ok sequence), .load attempt =>
    some { w with control := .simulate attempt sequence }
  | .loadAccount (.error error), .load attempt => some (w.finish attempt (.error error))
  | .simulate (.ok minResourceFee), .simulate attempt sequence =>
    let fee := ⌊minResourceFee * feeMultiplier attempt⌋₊
    some { w with control := .send attempt ⟨sequence + 1, fee, call⟩ }
  | .simulate (.error error), .simulate attempt _ => some (w.finish attempt (.error error))
  | .sendTransaction answer, .send attempt tx =>
    let w := w.transmit tx
    match answer with
    | .raises error => some (w.finish attempt (.error error))
    | .refused error => some (w.finish attempt (.error (orElse error "send failed")))
    | .taken txHash => some { w with control := .poll attempt txHash POLLS }
  | .getTransaction answer, .poll attempt txHash left =>
    match answer with
    | .raises error => some (w.finish attempt (.error error))
    | .success => some (w.finish attempt (.ok txHash))
    | .failed error => some (w.finish attempt (.error (orElse error "execution failed")))
    | .notYet =>
      if left ≤ 1 then some (w.finish attempt (.error "timeout: polling exceeded 30 attempts"))
      else some { w with control := .poll attempt txHash (left - 1) }
  | .applied i succeeds, _ => do
    let sent ← w.sent[i]?
    if sent.applied = none ∧ sent.tx.sequence = w.sequence + 1 then
      some { w with
        sequence := w.sequence + 1
        sent := w.sent.set i { sent with applied := some succeeds } }
    else none
  | .otherApplied, _ => some { w with sequence := w.sequence + 1 }
  | _, _ => none

def Steps (w : World) (e : Event) (w' : World) : Prop := next call w e = some w'

/-- Where the call loads the account again, no transaction that it sent has succeeded, and each was
built on the number that the server answers with or can no longer be applied. -/
def Careful (w : World) (e : Event) : Prop :=
  match e with
  | .loadAccount (.ok sequence) => ∀ s ∈ w.sent, s.applied ≠ some true ∧
      (s.tx.sequence = sequence + 1 ∨ s.tx.sequence ≤ w.sequence)
  | _ => True

instance (w : World) (e : Event) : Decidable (Careful w e) := by
  unfold Careful
  split <;> infer_instance

def CarefulSteps (w : World) (e : Event) (w' : World) : Prop := Steps call w e w' ∧ Careful w e

end Steps

def World.successes (w : World) : ℕ := w.sent.countP fun s => decide (s.applied = some true)

def Control.attempt? : Control → Option Attempt
  | .load attempt | .simulate attempt _ | .send attempt _ | .poll attempt _ _ => some attempt
  | .returned _ => none

inductive Move (call : Invocation) (w : World) : Event → World → Prop where
  | load (attempt : Attempt) (sequence : ℕ) (hcontrol : w.control = .load attempt) :
      Move call w (.loadAccount (.ok sequence)) { w with control := .simulate attempt sequence }
  | prepare (attempt : Attempt) (sequence fee : ℕ) {e : Event}
      (hcontrol : w.control = .simulate attempt sequence) :
      Move call w e { w with control := .send attempt ⟨sequence + 1, fee, call⟩ }
  | finish (attempt : Attempt) (result : Except String String) {e : Event}
      (hcontrol : w.control.attempt? = some attempt) : Move call w e (w.finish attempt result)
  | sendFinish (attempt : Attempt) (tx : Transaction) (result : Except String String) {e : Event}
      (hcontrol : w.control = .send attempt tx) :
      Move call w e ((w.transmit tx).finish attempt result)
  | sendTaken (attempt : Attempt) (tx : Transaction) (txHash : String) {e : Event}
      (hcontrol : w.control = .send attempt tx) :
      Move call w e { w.transmit tx with control := .poll attempt txHash POLLS }
  | wait (attempt : Attempt) (txHash : String) (left left' : ℕ) {e : Event}
      (hcontrol : w.control = .poll attempt txHash left) :
      Move call w e { w with control := .poll attempt txHash left' }
  | applied (i : ℕ) (sent : Sent) (succeeds : Bool) (hsent : w.sent[i]? = some sent)
      (hopen : sent.applied = none) (hnumber : sent.tx.sequence = w.sequence + 1) :
      Move call w (.applied i succeeds) { w with
        sequence := w.sequence + 1
        sent := w.sent.set i { sent with applied := some succeeds } }
  | otherApplied : Move call w .otherApplied { w with sequence := w.sequence + 1 }

theorem move_of_steps {call : Invocation} {w w' : World} {e : Event} (h : Steps call w e w') :
    Move call w e w' := by
  have hattempt {control : Control} {attempt : Attempt} (hcontrol : w.control = control)
      (hof : control.attempt? = some attempt) : w.control.attempt? = some attempt := by
    rw [hcontrol]
    exact hof
  unfold Steps next at h
  split at h
  · rename_i hcontrol
    obtain rfl := Option.some.inj h
    exact .load _ _ hcontrol
  · rename_i hcontrol
    obtain rfl := Option.some.inj h
    exact .finish _ _ (hattempt hcontrol rfl)
  · rename_i hcontrol
    obtain rfl := Option.some.inj h
    exact .prepare _ _ _ hcontrol
  · rename_i hcontrol
    obtain rfl := Option.some.inj h
    exact .finish _ _ (hattempt hcontrol rfl)
  · rename_i answer attempt tx hcontrol
    cases answer with
    | raises | refused =>
      obtain rfl := Option.some.inj h
      exact .sendFinish _ _ _ hcontrol
    | taken txHash =>
      obtain rfl := Option.some.inj h
      exact .sendTaken _ _ _ hcontrol
  · rename_i answer attempt txHash left hcontrol
    cases answer with
    | raises | success | failed =>
      obtain rfl := Option.some.inj h
      exact .finish _ _ (hattempt hcontrol rfl)
    | notYet =>
      by_cases hlast : left ≤ 1
      · obtain rfl := Option.some.inj ((if_pos hlast).symm.trans h)
        exact .finish _ _ (hattempt hcontrol rfl)
      · obtain rfl := Option.some.inj ((if_neg hlast).symm.trans h)
        exact .wait _ _ _ _ hcontrol
  · obtain ⟨sent, hsent, h⟩ := Option.bind_eq_some_iff.mp h
    obtain ⟨⟨hopen, hnumber⟩, heq⟩ := Option.ite_none_right_eq_some.mp h
    obtain rfl := Option.some.inj heq
    exact .applied _ _ _ hsent hopen hnumber
  · obtain rfl := Option.some.inj h
    exact .otherApplied
  · cases h

/-- The results of the attempts so far lead to where the call stands. -/
def Tracks (w : World) : Prop :=
  match w.control with
  | .returned result => ∃ submitOnce : Attempt → Except String String,
      (∀ a r, w.results a = some r → submitOnce a = r) ∧ result = executeWithRetries submitOnce
  | control => ∀ a ∈ control.attempt?, (a = .first ∧ ∀ a', w.results a' = none) ∨
      ∃ r, afterAttempt .first r = .inl a ∧
        w.results = Function.update (fun _ => none) .first (some r)

theorem tracks_running {w : World} {attempt : Attempt}
    (hcontrol : w.control.attempt? = some attempt) : Tracks w ↔
      (attempt = .first ∧ ∀ a', w.results a' = none) ∨
        ∃ r, afterAttempt .first r = .inl attempt ∧
          w.results = Function.update (fun _ => none) .first (some r) := by
  unfold Tracks
  cases hc : w.control with
  | returned => rw [hc] at hcontrol; cases hcontrol
  | load | simulate | send | poll =>
    rw [hc] at hcontrol
    obtain rfl := Option.some.inj hcontrol
    simp [Control.attempt?]

theorem afterAttempt_last {attempt : Attempt} (h : attempt ≠ .first)
    (result : Except String String) :
    afterAttempt attempt result = .inr (result.mapError failureText) := by
  cases result with
  | ok => rfl
  | error error =>
    cases attempt with
    | first => exact absurd rfl h
    | feeRetry | second => rfl

theorem afterAttempt_ne_first {attempt : Attempt} {result : Except String String}
    (h : afterAttempt .first result = .inl attempt) : attempt ≠ .first := by
  rintro rfl
  cases result with
  | ok => cases h
  | error error =>
    simp only [afterAttempt] at h
    split_ifs at h <;> cases h

theorem Tracks.finish {w : World} {attempt : Attempt} (h : Tracks w)
    (hcontrol : w.control.attempt? = some attempt) (result : Except String String) :
    Tracks (w.finish attempt result) := by
  rcases (tracks_running hcontrol).mp h with ⟨rfl, hnone⟩ | ⟨r, hr, hresults⟩
  · have hw : w.results = fun _ => none := funext hnone
    cases hafter : afterAttempt .first result with
    | inl attempt =>
      have hload : (w.finish .first result).control = .load attempt := by
        simp only [World.finish, hafter]
      refine (tracks_running (by rw [hload]; rfl)).mpr (.inr ⟨result, hafter, ?_⟩)
      simp only [World.finish, hw]
    | inr final =>
      have hreturned : (w.finish .first result).control = .returned final := by
        simp only [World.finish, hafter]
      unfold Tracks
      rw [hreturned]
      refine ⟨fun _ => result, fun a r hr => ?_, ?_⟩
      · simp only [World.finish, hw] at hr
        by_cases ha : a = .first
        · subst ha
          rw [Function.update_self] at hr
          exact Option.some.inj hr
        · rw [Function.update_of_ne ha] at hr
          cases hr
      · simp only [executeWithRetries, hafter]
  · have hne := afterAttempt_ne_first hr
    have hreturned : (w.finish attempt result).control =
        .returned (result.mapError failureText) := by
      simp only [World.finish, afterAttempt_last hne]
    unfold Tracks
    rw [hreturned]
    let submitOnce : Attempt → Except String String := fun a => if a = .first then r else result
    refine ⟨submitOnce, fun a r' hr' => ?_, ?_⟩
    · simp only [World.finish, hresults] at hr'
      by_cases hlast : a = attempt
      · subst hlast
        rw [Function.update_self] at hr'
        exact (if_neg hne).trans (Option.some.inj hr')
      · rw [Function.update_of_ne hlast] at hr'
        by_cases ha : a = .first
        · subst ha
          rw [Function.update_self] at hr'
          exact (if_pos rfl).trans (Option.some.inj hr')
        · rw [Function.update_of_ne ha] at hr'
          cases hr'
    · have hfirst : submitOnce .first = r := if_pos rfl
      have hlast : submitOnce attempt = result := if_neg hne
      simp only [executeWithRetries, hfirst, hr, hlast]

theorem Tracks.step {call : Invocation} {w w' : World} {e : Event} (h : Tracks w)
    (hstep : Steps call w e w') : Tracks w' := by
  -- Within an attempt the results stay as they are.
  have hgoOn {u : World} {attempt : Attempt} (hcontrol : w.control.attempt? = some attempt)
      (hnext : u.control.attempt? = some attempt) (hresults : u.results = w.results) :
      Tracks u := by
    rw [tracks_running hnext, hresults]
    exact (tracks_running hcontrol).mp h
  cases move_of_steps hstep with
  | load attempt sequence hcontrol => exact hgoOn (by rw [hcontrol]; rfl) rfl rfl
  | prepare attempt sequence fee hcontrol => exact hgoOn (by rw [hcontrol]; rfl) rfl rfl
  | finish attempt result hcontrol => exact h.finish hcontrol result
  | sendFinish attempt tx result hcontrol =>
    have hattempt : (w.transmit tx).control.attempt? = some attempt := by
      change w.control.attempt? = some attempt
      rw [hcontrol]
      rfl
    have htracks : Tracks (w.transmit tx) := h
    exact htracks.finish hattempt result
  | sendTaken attempt tx txHash hcontrol => exact hgoOn (by rw [hcontrol]; rfl) rfl rfl
  | wait attempt txHash left left' hcontrol => exact hgoOn (by rw [hcontrol]; rfl) rfl rfl
  | applied | otherApplied => exact h

theorem returned_eq {call : Invocation} {sequence : ℕ} {w : World} {ls : List Event}
    {result : Except String String} (h : Run (Steps call) (.initial sequence) ls w)
    (hreturned : w.control = .returned result) : ∃ submitOnce : Attempt → Except String String,
      (∀ a r, w.results a = some r → submitOnce a = r) ∧
        result = executeWithRetries submitOnce := by
  have hinitial : Tracks (.initial sequence) :=
    (tracks_running rfl).mpr (.inl ⟨rfl, fun _ => rfl⟩)
  have htracks := h.invariant (fun _ _ _ hold hstep => Tracks.step hold hstep) hinitial
  rw [Tracks, hreturned] at htracks
  exact htracks

/-- The sequence number of the transaction that the call is about to send. -/
def World.pending (w : World) : Option ℕ :=
  match w.control with
  | .simulate _ sequence => some (sequence + 1)
  | .send _ tx => some tx.sequence
  | .load _ | .poll _ _ _ | .returned _ => none

/-- A transaction with this number is sent or about to be, and the ledger has not passed it. -/
def Live (w : World) (n : ℕ) : Prop :=
  w.sequence < n ∧
    (w.pending = some n ∨ ∃ s ∈ w.sent, s.applied = none ∧ s.tx.sequence = n)

/-- At most one transaction has succeeded, none while one can still be applied, and those that can
be applied share their sequence number. -/
structure Single (w : World) : Prop where
  one : w.successes ≤ 1
  clear : ∀ n, Live w n → w.successes = 0
  same : ∀ n m, Live w n → Live w m → n = m

theorem single_initial (sequence : ℕ) : Single (.initial sequence) where
  one := Nat.zero_le _
  clear _ _ := rfl
  same n m h := by
    rcases h.2 with hpending | ⟨s, hs, -⟩
    · cases hpending
    · cases hs

theorem Single.mono {w w' : World} (h : Single w) (hsuccesses : w'.successes = w.successes)
    (hlive : ∀ n, Live w' n → Live w n) : Single w' where
  one := hsuccesses ▸ h.one
  clear n hn := hsuccesses ▸ h.clear n (hlive n hn)
  same n m hn hm := h.same n m (hlive n hn) (hlive m hm)

theorem finish_pending (w : World) (attempt : Attempt) (result : Except String String) :
    (w.finish attempt result).pending = none := by
  simp only [World.finish, World.pending]
  cases afterAttempt attempt result <;> rfl

theorem Single.finish {w : World} (h : Single w) (attempt : Attempt)
    (result : Except String String) : Single (w.finish attempt result) := by
  refine h.mono rfl ?_
  rintro n ⟨hsequence, hpending | hsent⟩
  · rw [finish_pending] at hpending
    cases hpending
  · exact ⟨hsequence, .inr hsent⟩

theorem successes_transmit (w : World) (tx : Transaction) :
    (w.transmit tx).successes = w.successes := by
  simp [World.successes, World.transmit, List.countP_append]

theorem Single.transmit {w : World} {attempt : Attempt} {tx : Transaction} (h : Single w)
    (hcontrol : w.control = .send attempt tx) : Single (w.transmit tx) := by
  have hpending : w.pending = some tx.sequence := by rw [World.pending, hcontrol]
  refine h.mono (successes_transmit w tx) ?_
  rintro n ⟨hsequence, hsame | ⟨s, hs, hopen, rfl⟩⟩
  · exact ⟨hsequence, .inl hsame⟩
  · rcases List.mem_append.mp hs with hs | hs
    · exact ⟨hsequence, .inr ⟨s, hs, hopen, rfl⟩⟩
    · obtain rfl := List.mem_singleton.mp hs
      exact ⟨hsequence, .inl hpending⟩

theorem Single.goOn {w : World} (h : Single w) {control : Control}
    (hpending : ∀ n, ({ w with control := control } : World).pending = some n →
      w.pending = some n) : Single { w with control := control } := by
  refine h.mono rfl ?_
  rintro n ⟨hsequence, hnext | hsent⟩
  · exact ⟨hsequence, .inl (hpending n hnext)⟩
  · exact ⟨hsequence, .inr hsent⟩

/-- An account loaded with care: nothing has succeeded, and what can still be applied has the
number of the transaction to come. -/
theorem Single.load {w : World} {attempt : Attempt} {sequence : ℕ}
    (hcareful : Careful w (.loadAccount (.ok sequence))) :
    Single { w with control := .simulate attempt sequence } := by
  have hnone : w.successes = 0 := by
    apply List.countP_eq_zero.mpr
    intro s hs hsuccess
    exact (hcareful s hs).1 (of_decide_eq_true hsuccess)
  have hlive (n : ℕ) (h : Live { w with control := .simulate attempt sequence } n) :
      n = sequence + 1 := by
    obtain ⟨hsequence, hpending | ⟨s, hs, -, rfl⟩⟩ := h
    · exact (Option.some.inj hpending).symm
    · exact (hcareful s hs).2.resolve_right (not_le.mpr hsequence)
  exact ⟨hnone.le.trans (Nat.zero_le 1), fun _ _ => hnone,
    fun n m hn hm => (hlive n hn).trans (hlive m hm).symm⟩

/-- The ledger applies a transaction with the account's next number. -/
theorem Single.apply {w : World} {i : ℕ} {sent : Sent} {succeeds : Bool} (h : Single w)
    (hsent : w.sent[i]? = some sent) (hopen : sent.applied = none)
    (hnumber : sent.tx.sequence = w.sequence + 1) :
    Single { w with
      sequence := w.sequence + 1
      sent := w.sent.set i { sent with applied := some succeeds } } := by
  obtain ⟨hi, hget⟩ := List.getElem?_eq_some_iff.mp hsent
  have hlive : Live w (w.sequence + 1) :=
    ⟨Nat.lt_succ_self _, .inr ⟨sent, List.mem_of_getElem? hsent, hopen, hnumber⟩⟩
  have hnone := h.clear _ hlive
  let w' : World := { w with
    sequence := w.sequence + 1
    sent := w.sent.set i { sent with applied := some succeeds } }
  have hdead (n : ℕ) (hn : Live w' n) : False := by
    obtain ⟨hsequence, hcase⟩ := hn
    have hold : Live w n := by
      refine ⟨(Nat.lt_succ_self _).trans hsequence, hcase.imp_right ?_⟩
      rintro ⟨s, hs, hs', rfl⟩
      rcases List.mem_or_eq_of_mem_set hs with hs | rfl
      · exact ⟨s, hs, hs', rfl⟩
      · cases hs'
    exact absurd (h.same n _ hold hlive) hsequence.ne'
  refine ⟨?_, fun n hn => (hdead n hn).elim, fun n m hn => (hdead n hn).elim⟩
  change (w.sent.set i { sent with applied := some succeeds }).countP _ ≤ 1
  rw [List.countP_set hi]
  change w.sent.countP _ = 0 at hnone
  rw [hnone]
  split_ifs <;> omega

theorem Single.other {w : World} (h : Single w) : Single { w with sequence := w.sequence + 1 } := by
  refine h.mono rfl ?_
  rintro n ⟨hsequence, hcase⟩
  exact ⟨(Nat.lt_succ_self _).trans hsequence, hcase⟩

theorem Single.step {call : Invocation} {w w' : World} {e : Event} (h : Single w)
    (hstep : CarefulSteps call w e w') : Single w' := by
  obtain ⟨hnext, hcareful⟩ := hstep
  cases move_of_steps hnext with
  | load attempt sequence => exact .load hcareful
  | prepare attempt sequence fee hcontrol =>
    refine h.goOn fun n hn => ?_
    rw [World.pending, hcontrol]
    exact hn
  | finish attempt result => exact h.finish attempt result
  | sendFinish attempt tx result hcontrol => exact (h.transmit hcontrol).finish attempt result
  | sendTaken attempt tx txHash hcontrol => exact (h.transmit hcontrol).goOn nofun
  | wait => exact h.goOn nofun
  | applied i sent succeeds hsent hopen hnumber => exact h.apply hsent hopen hnumber
  | otherApplied => exact h.other

/-- Where the call never loads the account again after a transaction of it has succeeded, or with a
number that would let two of its transactions be applied, at most one of them ever succeeds. -/
theorem at_most_one_success {call : Invocation} {sequence : ℕ} {w : World} {ls : List Event}
    (h : Run (CarefulSteps call) (.initial sequence) ls w) : w.successes ≤ 1 := by
  have hsingle : Single w :=
    h.invariant (fun _ _ _ hold hstep => hold.step hstep) (single_initial sequence)
  exact hsingle.one

/-- The server answers with the account's number, and nothing that the call sent has succeeded. -/
def Truthful (w : World) (e : Event) : Prop :=
  match e with
  | .loadAccount (.ok sequence) => sequence = w.sequence ∧ ∀ s ∈ w.sent, s.applied ≠ some true
  | _ => True

/-- No transaction is ahead of the account by more than one. -/
def Near (w : World) : Prop :=
  (∀ n, w.pending = some n → n ≤ w.sequence + 1) ∧ ∀ s ∈ w.sent, s.tx.sequence ≤ w.sequence + 1

theorem Near.careful {w : World} {e : Event} (h : Near w) (htruthful : Truthful w e) :
    Careful w e := by
  unfold Careful
  split
  · rename_i sequence
    obtain ⟨rfl, hnone⟩ := htruthful
    intro s hs
    refine ⟨hnone s hs, ?_⟩
    have := h.2 s hs
    omega
  · trivial

theorem near_initial (sequence : ℕ) : Near (.initial sequence) := ⟨nofun, nofun⟩

theorem Near.finish {w : World} (h : Near w) (attempt : Attempt)
    (result : Except String String) : Near (w.finish attempt result) := by
  refine ⟨fun n hn => ?_, h.2⟩
  rw [finish_pending] at hn
  cases hn

theorem Near.transmit {w : World} {attempt : Attempt} {tx : Transaction} (h : Near w)
    (hcontrol : w.control = .send attempt tx) : Near (w.transmit tx) := by
  refine ⟨h.1, fun s hs => ?_⟩
  rcases List.mem_append.mp hs with hs | hs
  · exact h.2 s hs
  · obtain rfl := List.mem_singleton.mp hs
    apply h.1
    rw [World.pending, hcontrol]

theorem Near.step {call : Invocation} {w w' : World} {e : Event} (h : Near w)
    (hstep : Steps call w e w') (htruthful : Truthful w e) : Near w' := by
  cases move_of_steps hstep with
  | load attempt sequence =>
    refine ⟨fun n hn => ?_, h.2⟩
    obtain rfl := Option.some.inj hn
    exact (congrArg (· + 1) htruthful.1).le
  | prepare attempt sequence fee hcontrol =>
    refine ⟨fun n hn => h.1 n ?_, h.2⟩
    rw [World.pending, hcontrol]
    exact hn
  | finish attempt result => exact h.finish attempt result
  | sendFinish attempt tx result hcontrol => exact (h.transmit hcontrol).finish attempt result
  | sendTaken attempt tx txHash hcontrol => exact ⟨nofun, (h.transmit hcontrol).2⟩
  | wait => exact ⟨nofun, h.2⟩
  | applied i sent succeeds hsent hopen hnumber =>
    refine ⟨fun n hn => (h.1 n hn).trans (Nat.le_succ _), fun s hs => ?_⟩
    rcases List.mem_or_eq_of_mem_set hs with hs | rfl
    · exact (h.2 s hs).trans (Nat.le_succ _)
    · exact hnumber.le.trans (Nat.le_succ _)
  | otherApplied =>
    exact ⟨fun n hn => (h.1 n hn).trans (Nat.le_succ _),
      fun s hs => (h.2 s hs).trans (Nat.le_succ _)⟩

theorem at_most_one_of_truthful {call : Invocation} {sequence : ℕ} {w : World} {ls : List Event}
    (h : Run (fun w e w' => Steps call w e w' ∧ Truthful w e) (.initial sequence) ls w) :
    w.successes ≤ 1 := by
  have hboth : Single w ∧ Near w := by
    refine h.invariant (I := fun w => Single w ∧ Near w) (fun u e v hold hstep => ?_)
      ⟨single_initial sequence, near_initial sequence⟩
    obtain ⟨hsingle, hnear⟩ := hold
    exact ⟨hsingle.step ⟨hstep.1, hnear.careful hstep.2⟩, hnear.step hstep.1 hstep.2⟩
  exact hboth.1.one

section Examples

def sampleCall : Invocation := ⟨"G", "XLM/USDC", 80, 0, "1", none⟩

/-- A submission that is taken and not seen in thirty polls. -/
def timedOut (sequence : ℕ) : List Event :=
  [.loadAccount (.ok sequence), .simulate (.ok 1000), .sendTransaction (.taken "a")] ++
    List.replicate 30 (.getTransaction .notYet)

def confirmed (sequence i : ℕ) : List Event :=
  [.loadAccount (.ok sequence), .simulate (.ok 1000), .sendTransaction (.taken "b"),
    .applied i true, .getTransaction .success]

/-- The first transaction is never applied, and the retry is published. -/
theorem at_most_one_success_retried : ∃ w : World,
    w.control = .returned (.ok "b") ∧ w.successes ≤ 1 := by
  have hrun : ((timedOut 5 ++ confirmed 5 1).foldlM
      (fun w e => if Careful w e then next sampleCall w e else none) (World.initial 5)).any
        (fun w => decide (w.control = .returned (.ok "b"))) = true := by
    decide +kernel
  obtain ⟨w, hw, hreturned⟩ := (Option.any_eq_true _ _).mp hrun
  exact ⟨w, of_decide_eq_true hreturned, at_most_one_success (run_iff_foldlM.mpr hw)⟩

/-- The first transaction is applied after the last poll, and then the retry is published too. -/
theorem published_twice : ¬ ∀ (call : Invocation) (sequence : ℕ) (w : World) (ls : List Event),
    Run (Steps call) (.initial sequence) ls w → w.successes ≤ 1 := by
  intro h
  have hrun : ((timedOut 5 ++ .applied 0 true :: confirmed 6 1).foldlM
      (fun w e => if True then next sampleCall w e else none) (World.initial 5)).any
        (fun w => decide (w.successes = 2)) = true := by
    decide +kernel
  obtain ⟨w, hw, htwo⟩ := (Option.any_eq_true _ _).mp hrun
  have hsteps := (run_iff_foldlM.mpr hw).mono fun _ _ _ hstep => hstep.1
  have hone := h sampleCall 5 w _ hsteps
  have htwo := of_decide_eq_true htwo
  omega

end Examples

end SorobanSubmission
