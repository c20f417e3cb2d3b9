import LedgerLens.FederatedServer

/-!
# The privacy budget of the federated server

The ε that completed rounds spend against the budget. The accountant's projection tests a round
before its updates are taken; the linear sum tests what earlier rounds have spent.
-/
namespace FederatedBudget

open FederatedServer Krum

variable {d : ℕ} {Key Sig Party : Type}

section

variable (c : Config) (lib : Libraries d Key Sig)

/-- Updates are pending only where their round was tested against the budget. -/
def Open (s : Server d Key) : Prop :=
  (∃ u ∈ s.pendingUpdates, u.valid = true) → ¬ budgetExhausted c lib s

/-- With linear accounting, a round is completed on a rest of the budget that is less than its
ε. -/
def Overshoots (s : Server d Key) (call : Call d Key Sig Party) : Prop :=
  ¬ c.rdp ∧ (completedBy c lib s call).isSome ∧ s.cumulativeEpsilon < c.dpMaxEpsilon ∧
    c.dpMaxEpsilon < s.cumulativeEpsilon + c.dpEpsilon

end

variable {c : Config} {lib : Libraries d Key Sig} {s t : Server d Key}

theorem budgetExhausted_congr (hround : t.roundNumber = s.roundNumber)
    (hcumulative : t.cumulativeEpsilon = s.cumulativeEpsilon) :
    budgetExhausted c lib t ↔ budgetExhausted c lib s := by
  unfold budgetExhausted
  rw [hround, hcumulative]

theorem enter_pendingUpdates (c : Config) (lib : Libraries d Key Sig) (s : Server d Key)
    (call : Call d Key Sig Party) :
    (enter c lib s call).pendingUpdates = s.pendingUpdates ∨ ¬ budgetExhausted c lib s := by
  cases call with
  | admitParticipant participantId maxNSamples =>
    simp only [enter, next, admitParticipant]
    split_ifs <;> exact .inl rfl
  | revoke participantId =>
    simp only [enter, next, revokeAdmission]
    split <;> exact .inl rfl
  | register caller participantId publicKey =>
    simp only [enter, next, registerParticipant]
    split
    · exact .inl rfl
    · split <;> exact .inl rfl
  | submit u draw =>
    cases hadmission : admission c lib s u with
    | error e => exact .inl (by simp [enter, hadmission])
    | ok r => exact .inr (admission_eq_ok hadmission).2.1
  | forceAggregate draw => exact .inl rfl

theorem open_enter (h : Open c lib s) (call : Call d Key Sig Party) :
    Open c lib (enter c lib s call) := by
  obtain ⟨hround, hcumulative⟩ := enter_spends_nothing c lib s call
  intro hpending
  rw [budgetExhausted_congr hround hcumulative]
  rcases enter_pendingUpdates c lib s call with hsame | htested
  · rw [hsame] at hpending
    exact h hpending
  · exact htested

theorem open_next (h : Open c lib s) {call : Call d Key Sig Party} (hsaved : call.saved = true) :
    Open c lib (next c lib s call) := by
  rcases next_cases c lib s call with ⟨-, hsame⟩ | ⟨updates, -, hcounted⟩
  · intro hpending
    rw [hsame.pendingUpdates] at hpending
    rw [budgetExhausted_congr hsame.roundNumber hsame.cumulativeEpsilon]
    exact open_enter h call hpending
  · intro hpending
    rw [hcounted.pendingUpdates, hsaved] at hpending
    simp at hpending

theorem next_within_iff (hopen : Open c lib s) (hwithin : s.cumulativeEpsilon ≤ c.dpMaxEpsilon)
    (call : Call d Key Sig Party) :
    (next c lib s call).cumulativeEpsilon ≤ c.dpMaxEpsilon ↔ ¬ Overshoots c lib s call := by
  obtain ⟨hround, hcumulative⟩ := enter_spends_nothing c lib s call
  rcases next_cases c lib s call with ⟨hnone, hsame⟩ | ⟨updates, hsome, hcounted⟩
  · rw [hsame.cumulativeEpsilon, hcumulative]
    have hnot : ¬ Overshoots c lib s call := by
      intro hover
      simpa [hnone] using hover.2.1
    exact ⟨fun _ => hnot, fun _ => hwithin⟩
  · obtain ⟨u, hu⟩ := List.exists_mem_of_ne_nil _ (completedBy_ne_nil hsome)
    have htested := open_enter hopen call ⟨u, mem_completedBy hsome hu⟩
    rw [budgetExhausted_congr hround hcumulative] at htested
    rw [hcounted.cumulativeEpsilon, hround, hcumulative]
    unfold Overshoots
    rw [hsome]
    by_cases hrdp : c.rdp
    · simp only [budgetExhausted, if_pos hrdp, not_lt] at htested
      simp [hrdp, htested]
    · simp only [budgetExhausted, if_neg hrdp, not_le] at htested
      simp [hrdp, htested]

theorem next_cumulativeEpsilon (hlinear : ¬ c.rdp) (s : Server d Key)
    (call : Call d Key Sig Party) :
    (next c lib s call).cumulativeEpsilon = s.cumulativeEpsilon +
      ((next c lib s call).roundNumber - s.roundNumber) * c.dpEpsilon := by
  obtain ⟨hround, hcumulative⟩ := enter_spends_nothing c lib s call
  rcases next_cases c lib s call with ⟨-, hsame⟩ | ⟨updates, -, hcounted⟩
  · rw [hsame.cumulativeEpsilon, hsame.roundNumber, hround, hcumulative, sub_self, zero_mul,
      add_zero]
  · rw [hcounted.cumulativeEpsilon, hcounted.roundNumber, hround, hcumulative, if_neg hlinear]
    push_cast
    ring

theorem foldl_cumulativeEpsilon (hlinear : ¬ c.rdp) (s : Server d Key)
    (calls : List (Call d Key Sig Party)) :
    (calls.foldl (next c lib) s).cumulativeEpsilon = s.cumulativeEpsilon +
      ((calls.foldl (next c lib) s).roundNumber - s.roundNumber) * c.dpEpsilon := by
  induction calls using List.reverseRecOn with
  | nil => simp
  | append_singleton calls call ih =>
    rw [List.foldl_append, List.foldl_cons, List.foldl_nil, next_cumulativeEpsilon hlinear, ih]
    ring

theorem overshoots_iff_rounds (hlinear : ¬ c.rdp) (start : Server d Key)
    (before : List (Call d Key Sig Party)) (call : Call d Key Sig Party) :
    Overshoots c lib (before.foldl (next c lib) start) call ↔
      (completedBy c lib (before.foldl (next c lib) start) call).isSome ∧
        ((before.foldl (next c lib) start).roundNumber - start.roundNumber) * c.dpEpsilon <
          c.dpMaxEpsilon - start.cumulativeEpsilon ∧
        c.dpMaxEpsilon - start.cumulativeEpsilon <
          ((before.foldl (next c lib) start).roundNumber - start.roundNumber + 1) *
            c.dpEpsilon := by
  rw [Overshoots, foldl_cumulativeEpsilon hlinear, add_mul, one_mul]
  constructor
  · rintro ⟨-, hcompleted, hrest, hover⟩
    exact ⟨hcompleted, by linarith, by linarith⟩
  · rintro ⟨hcompleted, hrest, hover⟩
    exact ⟨hlinear, hcompleted, by linarith, by linarith⟩

theorem not_overshoots_of_whole {start : Server d Key} {rounds : ℤ}
    (hwhole : c.dpMaxEpsilon - start.cumulativeEpsilon = rounds * c.dpEpsilon)
    (before : List (Call d Key Sig Party)) (call : Call d Key Sig Party) :
    ¬ Overshoots c lib (before.foldl (next c lib) start) call := by
  intro hover
  obtain ⟨-, hrest, hshort⟩ := (overshoots_iff_rounds hover.1 start before call).mp hover
  rw [hwhole] at hrest hshort
  have hpos : 0 < c.dpEpsilon := by linarith
  have hmore := lt_of_mul_lt_mul_right hrest hpos.le
  have hfewer := lt_of_mul_lt_mul_right hshort hpos.le
  have hmore' :
      ((before.foldl (next c lib) start).roundNumber : ℤ) - start.roundNumber < rounds := by
    exact_mod_cast hmore
  have hfewer' : rounds <
      ((before.foldl (next c lib) start).roundNumber : ℤ) - start.roundNumber + 1 := by
    exact_mod_cast hfewer
  omega

theorem open_run (h : Open c lib s) {calls : List (Call d Key Sig Party)}
    (hsaved : ∀ call ∈ calls, call.saved = true) : Open c lib (calls.foldl (next c lib) s) := by
  induction calls generalizing s with
  | nil => exact h
  | cons call calls ih =>
    have hhead := open_next h (hsaved call List.mem_cons_self)
    exact ih hhead fun call hcall => hsaved call (List.mem_cons_of_mem _ hcall)

theorem open_init (c : Config) (lib : Libraries d Key Sig)
    (admissions : String → Option Admission) (roundId : String) (rounds : ℕ) (cumulative : ℚ) :
    Open c lib (Server.init c lib admissions roundId rounds cumulative) := by
  intro hpending
  simp [Server.init] at hpending

section Examples

def budgetConfig (dpEpsilon : ℚ) : Config :=
  { Config.default with
    minParticipants := 1
    dpEpsilon := dpEpsilon
    dpMaxEpsilon := 1
    admissionRequired := false }

def signed : Libraries 1 Unit Unit := .oneRow fun _ _ _ => true

def twoRounds : List (Call 1 Unit Unit Unit) :=
  let update : Submission 1 Unit := ⟨"p", fun _ => 1 / 2, 10, ()⟩
  [.register () "p" (some ()), .submit update ⟨fun _ => 0, "r1", true⟩,
    .submit update ⟨fun _ => 0, "r2", true⟩]

def started (dpEpsilon : ℚ) : Server 1 Unit :=
  .init (budgetConfig dpEpsilon) signed (fun _ => none) "r0" 0 0

end Examples

end FederatedBudget
