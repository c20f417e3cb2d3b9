import LedgerLens.FederatedServer
import LedgerLens.LabelledRuns

/-!
# The keys of the federated participants

Whose keys are bound to the participant ids over a run of the server. A registration names no
proof that its caller holds the key that the id had before.
-/
namespace FederatedKeys

open FederatedServer Krum

variable {d : ℕ} {Key Sig Party : Type}

/-- The keys that stand for an id: the first one registered, and those that the holder of one of
them registered. -/
abbrev Authorised (Key : Type) := String → List Key

def bound (s : Server d Key) (participantId : String) : Option Key :=
  (s.participants participantId).map Participant.publicKey

section

variable (c : Config) (lib : Libraries d Key Sig) (Holds : Party → Key → Prop)
  [∀ party key, Decidable (Holds party key)]

def binds (s : Server d Key) (participantId : String) (publicKey : Option Key) : Option Key :=
  match ceilingOf c s participantId with
  | .error _ => none
  | .ok _ => publicKey

def ByHolder (keys : Authorised Key) (caller : Party) (participantId : String) : Prop :=
  ∃ key ∈ keys participantId, Holds caller key

instance (keys : Authorised Key) (caller : Party) (participantId : String) :
    Decidable (ByHolder Holds keys caller participantId) :=
  inferInstanceAs (Decidable (∃ key ∈ keys participantId, Holds caller key))

def authorise (s : Server d Key) (keys : Authorised Key) :
    Call d Key Sig Party → Authorised Key
  | .register caller participantId publicKey =>
    match binds c s participantId publicKey with
    | none => keys
    | some key =>
      if bound s participantId = none ∨ ByHolder Holds keys caller participantId then
        Function.update keys participantId (key :: keys participantId)
      else keys
  | _ => keys

structure System (d : ℕ) (Key : Type) where
  server : Server d Key
  keys : Authorised Key

def System.next (w : System d Key) (call : Call d Key Sig Party) : System d Key where
  server := FederatedServer.next c lib w.server call
  keys := authorise c Holds w.server w.keys call

def System.init (start : Server d Key) : System d Key := ⟨start, fun _ => []⟩

/-- What a call is to keep: an update is accepted only under a key that stands for its id, and only
the holder of such a key changes the key bound to an id. -/
def Kept (w : System d Key) (call : Call d Key Sig Party) : Prop :=
  (∀ u draw, call = .submit u draw → (admission c lib w.server u).isOk →
    ∃ key ∈ w.keys u.participantId, lib.verify key u.signature (w.server.payload u) = true) ∧
  ∀ participantId key, bound w.server participantId = some key →
    bound (w.next c lib Holds call).server participantId ≠ some key →
    ∃ caller publicKey, call = .register caller participantId publicKey ∧
      ByHolder Holds w.keys caller participantId

/-- A registration that passes for an id with another key is made by the holder of a key that
stands for it. -/
def Permitted (w : System d Key) : Call d Key Sig Party → Prop
  | .register caller participantId publicKey =>
    ∀ key ∈ binds c w.server participantId publicKey,
      ∀ old ∈ bound w.server participantId, key ≠ old →
        ByHolder Holds w.keys caller participantId
  | _ => True

end

variable {c : Config} {lib : Libraries d Key Sig} {Holds : Party → Key → Prop}
  [∀ party key, Decidable (Holds party key)] {w : System d Key}

def Bound (w : System d Key) : Prop :=
  ∀ participantId key, bound w.server participantId = some key → key ∈ w.keys participantId

theorem bound_congr {s t : Server d Key} (h : t.participants = s.participants)
    (participantId : String) : bound t participantId = bound s participantId := by
  rw [bound, bound, h]

theorem bound_accept {s : Server d Key} {u : Submission d Sig} {p : Participant Key}
    {update : Update d} (h : admission c lib s u = .ok (p, update)) (participantId : String) :
    bound (s.accept p update) participantId = bound s participantId := by
  obtain ⟨hregistered, -, -, rfl⟩ := admission_eq_ok h
  by_cases hid : participantId = u.participantId
  · subst hid
    simp [bound, Server.accept, screen, Participant.record, hregistered]
  · simp [bound, Server.accept, screen, hid]

theorem bound_register (s : Server d Key) (id participantId : String) (publicKey : Option Key) :
    bound (registerParticipant c s id publicKey).1 participantId =
      if participantId = id then (binds c s id publicKey).or (bound s id)
      else bound s participantId := by
  cases publicKey with
  | none =>
    have hnone : binds c s id none = none := by
      unfold binds
      split <;> rfl
    rw [hnone, Option.none_or]
    split_ifs with hid
    · rw [hid]
      rfl
    · rfl
  | some key =>
    cases hceiling : ceilingOf c s id with
    | error e =>
      simp only [registerParticipant, binds, hceiling, Option.none_or]
      split_ifs with hid
      · rw [hid]
      · rfl
    | ok ceiling =>
      by_cases hid : participantId = id
      · simp [bound, registerParticipant, binds, hceiling, hid]
      · simp [bound, registerParticipant, hceiling, hid]

theorem bound_enter (s : Server d Key) {call : Call d Key Sig Party}
    (hcall : ∀ caller id publicKey, call ≠ .register caller id publicKey) (participantId : String) :
    bound (enter c lib s call) participantId = bound s participantId := by
  cases call with
  | admitParticipant id maxNSamples =>
    simp only [enter, FederatedServer.next, admitParticipant]
    split_ifs <;> rfl
  | revoke id =>
    simp only [enter, FederatedServer.next, revokeAdmission]
    split <;> rfl
  | register caller id publicKey => exact absurd rfl (hcall caller id publicKey)
  | submit u draw =>
    cases hadmission : admission c lib s u with
    | error e => simp only [enter, hadmission]
    | ok r => simp only [enter, hadmission, bound_accept hadmission]
  | forceAggregate draw => rfl

theorem bound_next (s : Server d Key) (call : Call d Key Sig Party) (participantId : String) :
    bound (FederatedServer.next c lib s call) participantId =
      bound (enter c lib s call) participantId := by
  rcases next_cases c lib s call with ⟨-, hsame⟩ | ⟨updates, -, hcounted⟩
  · exact bound_congr hsame.participants participantId
  · exact bound_congr hcounted.participants participantId

theorem Bound.next (h : Bound w) {call : Call d Key Sig Party}
    (hpermitted : Permitted c Holds w call) : Bound (w.next c lib Holds call) := by
  intro participantId key hbound
  simp only [System.next, bound_next] at hbound ⊢
  by_cases hcall : ∃ caller id publicKey, call = .register caller id publicKey
  · obtain ⟨caller, id, publicKey, rfl⟩ := hcall
    simp only [enter, FederatedServer.next, bound_register] at hbound
    simp only [authorise]
    cases hbinds : binds c w.server id publicKey with
    | none =>
      rw [hbinds, Option.none_or] at hbound
      split_ifs at hbound with hid
      · subst hid
        exact h _ _ hbound
      · exact h _ _ hbound
    | some new =>
      rw [hbinds, Option.some_or] at hbound
      simp only []
      split_ifs at hbound with hid
      · subst hid
        obtain rfl := Option.some.inj hbound
        split_ifs with hallowed
        · simp
        · obtain ⟨hold, hother⟩ := not_or.mp hallowed
          obtain ⟨old, hbound⟩ := Option.ne_none_iff_exists'.mp hold
          by_cases hsame : new = old
          · exact hsame ▸ h _ _ hbound
          · exact absurd (hpermitted new hbinds old hbound hsame) hother
      · have hmem := h _ _ hbound
        split_ifs
        · rwa [Function.update_of_ne hid]
        · exact hmem
  · have hother : ∀ caller id publicKey, call ≠ .register caller id publicKey :=
      fun caller id publicKey heq => hcall ⟨caller, id, publicKey, heq⟩
    rw [bound_enter w.server hother] at hbound
    have hmem := h _ _ hbound
    cases call with
    | register caller id publicKey => exact absurd rfl (hother caller id publicKey)
    | admitParticipant | revoke | submit | forceAggregate => exact hmem

/-- Where the bound keys stand for their ids, a call keeps the binding exactly if it is
permitted. -/
theorem kept_iff_permitted (h : Bound w) (call : Call d Key Sig Party) :
    Kept c lib Holds w call ↔ Permitted c Holds w call := by
  constructor
  · intro hkept
    cases call with
    | register caller id publicKey =>
      intro key hbinds old hold hne
      have hchanged : bound (w.next c lib Holds (.register caller id publicKey)).server id ≠
          some old := by
        simp only [System.next, FederatedServer.next, bound_register]
        rw [hbinds]
        simpa using hne
      obtain ⟨caller', publicKey', hcall, hholder⟩ := hkept.2 id old hold hchanged
      cases hcall
      exact hholder
    | admitParticipant | revoke | submit | forceAggregate => exact trivial
  · intro hpermitted
    constructor
    · rintro u draw rfl hadmitted
      cases hadmission : admission c lib w.server u with
      | error e =>
        rw [hadmission] at hadmitted
        cases hadmitted
      | ok r =>
        obtain ⟨hregistered, -, hverify, -⟩ := admission_eq_ok hadmission
        refine ⟨r.1.publicKey, h _ _ ?_, hverify⟩
        simp [bound, hregistered]
    · intro participantId key hbound hchanged
      simp only [System.next, bound_next] at hchanged
      cases call with
      | register caller id publicKey =>
        simp only [enter, FederatedServer.next, bound_register] at hchanged
        split_ifs at hchanged with hid
        · subst hid
          cases hbinds : binds c w.server participantId publicKey with
          | none =>
            rw [hbinds, Option.none_or] at hchanged
            exact absurd hbound hchanged
          | some new =>
            rw [hbinds, Option.some_or] at hchanged
            refine ⟨caller, publicKey, rfl, ?_⟩
            exact hpermitted new hbinds key hbound fun heq => hchanged (heq ▸ rfl)
        · exact absurd hbound hchanged
      | admitParticipant | revoke | submit | forceAggregate =>
        rw [bound_enter w.server (by simp)] at hchanged
        exact absurd hbound hchanged

theorem bound_run (lib : Libraries d Key Sig) (h : Bound w)
    {calls before : List (Call d Key Sig Party)}
    (hpermitted : ∀ before call, before ++ [call] <+: calls →
      Bound (before.foldl (System.next c lib Holds) w) →
      Permitted c Holds (before.foldl (System.next c lib Holds) w) call) (hrun : before <+: calls) :
    Bound (before.foldl (System.next c lib Holds) w) := by
  induction before using List.reverseRecOn with
  | nil => exact h
  | append_singleton before call ih =>
    have hbound := ih ((List.prefix_append _ _).trans hrun)
    rw [List.foldl_append]
    exact hbound.next (hpermitted before call hrun hbound)

/-- Over a run, every call keeps the binding of the keys exactly if every registration of an id
that has another key is made by the holder of a key that stands for it. -/
theorem keys_kept_iff {start : Server d Key} (hstart : ∀ id, start.participants id = none)
    {calls : List (Call d Key Sig Party)} :
    (∀ before call, before ++ [call] <+: calls →
      Kept c lib Holds (before.foldl (System.next c lib Holds) (.init start)) call) ↔
    ∀ before call, before ++ [call] <+: calls →
      Permitted c Holds (before.foldl (System.next c lib Holds) (.init start)) call := by
  have hinit : Bound (System.init start) := by
    intro id key hbound
    simp [System.init, bound, hstart] at hbound
  constructor
  · intro hkept before call hrun
    have hbound := bound_run lib hinit (fun earlier last hearlier hbound =>
      (kept_iff_permitted hbound last).mp (hkept earlier last hearlier))
      ((List.prefix_append _ _).trans hrun)
    exact (kept_iff_permitted hbound call).mp (hkept before call hrun)
  · intro hpermitted before call hrun
    have hbound := bound_run lib hinit (fun earlier last hearlier _ =>
      hpermitted earlier last hearlier) ((List.prefix_append _ _).trans hrun)
    exact (kept_iff_permitted hbound call).mpr (hpermitted before call hrun)

section Examples

def numbered : Libraries 1 ℕ ℕ := .oneRow fun key signature _ => decide (signature = key)

def admitted : Server 1 ℕ := .init .default numbered (fun _ => some ⟨100, false⟩) "r0" 0 0

def Digit (party key : ℕ) : Prop := key % 10 = party

instance (party key : ℕ) : Decidable (Digit party key) := inferInstanceAs (Decidable (_ = _))

instance (w : System 1 ℕ) : ∀ call : Call 1 ℕ ℕ ℕ, Decidable (Permitted .default Digit w call)
  | .register caller participantId publicKey =>
    inferInstanceAs (Decidable (∀ key ∈ binds .default w.server participantId publicKey,
      ∀ old ∈ bound w.server participantId, key ≠ old →
        ByHolder Digit w.keys caller participantId))
  | .admitParticipant _ _ | .revoke _ | .submit _ _ | .forceAggregate _ => isTrue trivial

/-- The first party replaces its key, and another one takes part under an id of its own. -/
def rotation : List (Call 1 ℕ ℕ ℕ) :=
  [.register 1 "p" (some 1), .register 1 "p" (some 11), .register 2 "q" (some 2),
    .submit ⟨"p", fun _ => 1 / 2, 10, 11⟩ ⟨fun _ => 0, "r1", true⟩, .register 1 "p" (some 21)]

theorem keys_kept_iff_rotation :
    (∀ before call, before ++ [call] <+: rotation → Kept Config.default numbered Digit
      (before.foldl (System.next Config.default numbered Digit) (.init admitted)) call) ∧
    bound (rotation.foldl (System.next Config.default numbered Digit) (.init admitted)).server "p" =
      some 21 := by
  constructor
  · refine (keys_kept_iff fun _ => rfl).mpr (LabelledRuns.along_iff_prefix.mp ?_)
    decide +kernel
  · decide +kernel

theorem key_taken_over : ¬ ∀ (d : ℕ) (Key Sig Party : Type) (c : Config)
    (lib : Libraries d Key Sig) (Holds : Party → Key → Prop)
    [∀ party key, Decidable (Holds party key)] (start : Server d Key)
    (calls : List (Call d Key Sig Party)) (call : Call d Key Sig Party),
    (∀ id, start.participants id = none) →
    Kept c lib Holds (calls.foldl (System.next c lib Holds) (.init start)) call := by
  intro h
  have hkept := h 1 ℕ ℕ ℕ Config.default numbered (· = ·) admitted
    [.register 1 "p" (some 1)] (.register 2 "p" (some 2)) fun _ => rfl
  obtain ⟨caller, publicKey, hcall, hholder⟩ := hkept.2 "p" 1 (by decide +kernel)
    (by decide +kernel)
  cases hcall
  revert hholder
  decide +kernel

end Examples

end FederatedKeys
