import LedgerLens.LabelledRuns
import Mathlib.Algebra.Order.Field.Rat
import Mathlib.Data.Option.Basic

/-!
# The Soroban submission lease

`detection/soroban_lease.py`: one `Lease` object of the cluster, and the calls of any number of
regions that read it and try to write it. A call's steps lie apart in time, so calls overlap; the
API server refuses a write that is based on an older version. Lease handling is switched on.
-/
namespace SorobanLease

open LabelledRuns

/-- The parts of the lease object that are read. -/
structure Lease where
  holderIdentity : Option String
  renewTime : Option ℚ
  resourceVersion : ℕ
  deriving DecidableEq

/-- `bool(holder)`. -/
def Lease.Claimed (l : Lease) : Prop := ∃ holder, l.holderIdentity = some holder ∧ holder ≠ ""

inductive Kind where
  | acquire
  | renew
  deriving DecidableEq

structure Call where
  kind : Kind
  region : String
  leaseDurationSeconds : ℚ
  deriving DecidableEq

/-- `True`, `False`, or an exception. -/
inductive Result where
  | held
  | notHeld
  | raised
  deriving DecidableEq

/-- What a call that cannot read or write the lease comes to. -/
def Kind.failure : Kind → Result
  | .acquire => .notHeld
  | .renew => .raised

/-- Where a call is: `claiming` is inside `_renew_lease` with the attempts that are left. -/
inductive Phase where
  | idle
  | absent (c : Call)
  | read (c : Call) (lease : Lease)
  | claiming (c : Call) (lease : Lease) (left : ℕ)
  | done (c : Call) (r : Result)
  deriving DecidableEq

/-- The answer of one API call. A failing write may still have been applied. -/
inductive Api where
  | answers
  | apiException (applied : Bool)
  | raises (applied : Bool)
  deriving DecidableEq

def Api.reaches : Api → Bool
  | .answers => true
  | .apiException applied => applied
  | .raises applied => applied

structure Config where
  maxRenewAttempts : ℤ
  renewLeadSeconds : ℚ

/-- `heldUntil` is when the last lease that a region wrote runs out. -/
structure Cluster where
  now : ℚ
  lease : Option Lease
  version : ℕ
  phase : ℕ → Phase
  heldUntil : String → Option ℚ

def Cluster.setPhase (s : Cluster) (i : ℕ) (p : Phase) : Cluster :=
  { s with phase := Function.update s.phase i p }

@[simp] theorem Cluster.phase_setPhase_self (s : Cluster) (i : ℕ) (p : Phase) :
    (s.setPhase i p).phase i = p := Function.update_self ..

@[simp] theorem Cluster.phase_setPhase_of_ne (s : Cluster) {i j : ℕ} (h : j ≠ i) (p : Phase) :
    (s.setPhase i p).phase j = s.phase j := Function.update_of_ne h ..

/-- The body that both writes send names the region and carries no renew time. -/
def Cluster.write (s : Cluster) (c : Call) : Cluster :=
  { s with
    lease := some ⟨some c.region, none, s.version + 1⟩
    version := s.version + 1
    heldUntil := Function.update s.heldUntil c.region (some (s.now + c.leaseDurationSeconds)) }

theorem Cluster.heldUntil_write_of_ne (s : Cluster) {c : Call} {r : String} (h : r ≠ c.region) :
    (s.write c).heldUntil r = s.heldUntil r := Function.update_of_ne h ..

def afterRead (lease : Option Lease) (c : Call) : Api → Phase
  | .answers =>
    match lease, c.kind with
    | some lease, _ => .read c lease
    | none, .acquire => .absent c
    | none, .renew => .done c .raised
  | .apiException _ => .done c c.kind.failure
  | .raises _ => .done c .raised

/-- Unclaimed, or past its renew time by more than the duration. -/
def Stale (c : Call) (lease : Lease) (now : ℚ) : Prop :=
  ¬ lease.Claimed ∨ ∃ t, lease.renewTime = some t ∧ c.leaseDurationSeconds < now - t

/-- No renew time, or no more than the lead left. -/
def Due (cfg : Config) (c : Call) (lease : Lease) (now : ℚ) : Prop :=
  ∀ t ∈ lease.renewTime, c.leaseDurationSeconds - (now - t) ≤ cfg.renewLeadSeconds

instance (l : Lease) : Decidable l.Claimed :=
  match h : l.holderIdentity with
  | none => isFalse fun ⟨_, hsome, _⟩ => by simp [h] at hsome
  | some holder => decidable_of_iff (holder ≠ "") (by simp [Lease.Claimed, h])

instance (c : Call) (lease : Lease) (now : ℚ) : Decidable (Stale c lease now) :=
  match h : lease.renewTime with
  | none => decidable_of_iff (¬ lease.Claimed) (by simp [Stale, h])
  | some t => decidable_of_iff (¬ lease.Claimed ∨ c.leaseDurationSeconds < now - t)
      (by simp [Stale, h])

instance (cfg : Config) (c : Call) (lease : Lease) (now : ℚ) : Decidable (Due cfg c lease now) :=
  inferInstanceAs (Decidable (∀ t ∈ lease.renewTime, _))

def attempts (cfg : Config) : ℕ := (max 1 cfg.maxRenewAttempts).toNat

/-- What `acquire_submission_lease` and `renew_submission_lease` make of the lease they read. -/
def decideLease (cfg : Config) (c : Call) (lease : Lease) (now : ℚ) : Phase :=
  match c.kind with
  | .acquire =>
    if Stale c lease now then .claiming c lease (attempts cfg)
    else .done c (if lease.holderIdentity = some c.region then .held else .notHeld)
  | .renew => if Due cfg c lease now then .claiming c lease (attempts cfg) else .done c .held

def Cluster.create (s : Cluster) (c : Call) (api : Api) : Cluster × Phase :=
  (if s.lease = none ∧ api.reaches then s.write c else s,
    match api with
    | .answers => .done c (if s.lease = none then .held else .notHeld)
    | .apiException _ => .done c .notHeld
    | .raises _ => .done c .raised)

/-- The server still has the version that was read. -/
def Cluster.Unchanged (s : Cluster) (lease : Lease) : Prop :=
  s.lease.map Lease.resourceVersion = some lease.resourceVersion

instance (s : Cluster) (lease : Lease) : Decidable (s.Unchanged lease) :=
  inferInstanceAs (Decidable (_ = _))

/-- One attempt of `_renew_lease`; every attempt sends the version that was read. -/
def Cluster.replace (s : Cluster) (c : Call) (lease : Lease) (left : ℕ) (api : Api) :
    Cluster × Phase :=
  (if s.Unchanged lease ∧ api.reaches then s.write c else s,
    let again := if left ≤ 1 then .done c c.kind.failure else .claiming c lease (left - 1)
    match api with
    | .answers => if s.Unchanged lease then .done c .held else again
    | .apiException _ => again
    | .raises _ => .done c .raised)

inductive Event where
  | wait (seconds : ℚ)
  | read (i : ℕ) (c : Call) (api : Api)
  | decide (i : ℕ)
  | create (i : ℕ) (api : Api)
  | replace (i : ℕ) (api : Api)
  deriving DecidableEq

def next (cfg : Config) (s : Cluster) : Event → Option Cluster
  | .wait seconds => if 0 ≤ seconds then some { s with now := s.now + seconds } else none
  | .read i c api =>
    match s.phase i with
    | .idle => some (s.setPhase i (afterRead s.lease c api))
    | _ => none
  | .decide i =>
    match s.phase i with
    | .read c lease => some (s.setPhase i (decideLease cfg c lease s.now))
    | _ => none
  | .create i api =>
    match s.phase i with
    | .absent c => some ((s.create c api).1.setPhase i (s.create c api).2)
    | _ => none
  | .replace i api =>
    match s.phase i with
    | .claiming c lease left =>
      some ((s.replace c lease left api).1.setPhase i (s.replace c lease left api).2)
    | _ => none

def Steps (cfg : Config) (s : Cluster) (e : Event) (s' : Cluster) : Prop := next cfg s e = some s'

structure Initial (s : Cluster) : Prop where
  unclaimed : ∀ l ∈ s.lease, ¬ l.Claimed ∧ l.resourceVersion ≤ s.version
  idle : ∀ i, s.phase i = .idle
  unheld : ∀ region, s.heldUntil region = none

/-- The region has written the lease and that has not run out. -/
def Holds (s : Cluster) (region : String) : Prop := ∃ t, s.heldUntil region = some t ∧ s.now ≤ t

def AtMostOne (s : Cluster) : Prop := ∀ r r', Holds s r → Holds s r' → r = r'

/-- The lease goes on naming a region that holds it. -/
def Undisplaced (s s' : Cluster) : Prop :=
  ∀ r l, s.lease = some l → l.holderIdentity = some r → Holds s r →
    ∃ l', s'.lease = some l' ∧ l'.holderIdentity = some r

/-- A call that finds the lease of another region run out goes on to claim it. -/
def Acquirable (s : Cluster) (e : Event) (s' : Cluster) : Prop :=
  ∀ i c l r, e = .decide i → s.phase i = .read c l → c.kind = .acquire →
    l.holderIdentity = some r → r ≠ c.region → ¬ Holds s r → ∃ left, s'.phase i = .claiming c l left

/-- No call of one region replaces a lease that another holds, as `renew_submission_lease` can and
as the lease of a region without a name allows; and none asks for one that has run out. -/
def Careful (s : Cluster) : Event → Prop
  | .replace i api => ∀ c l left r, s.phase i = .claiming c l left → s.Unchanged l →
      api.reaches = true → l.holderIdentity = some r → r ≠ c.region →
        (c.kind = .renew ∨ r = "") → ¬ Holds s r
  | .decide i => ∀ c l r, s.phase i = .read c l → c.kind = .acquire → l.holderIdentity = some r →
      r ≠ "" → r ≠ c.region → Holds s r
  | _ => True

section Steps

variable {cfg : Config} {s s' : Cluster} {e : Event}

theorem step_cases (h : Steps cfg s e s') :
    (∃ d, e = .wait d ∧ 0 ≤ d ∧ s' = { s with now := s.now + d }) ∨
    (∃ i c api, e = .read i c api ∧ s' = s.setPhase i (afterRead s.lease c api)) ∨
    (∃ i c l, e = .decide i ∧ s.phase i = .read c l ∧
      s' = s.setPhase i (decideLease cfg c l s.now)) ∨
    (∃ i c api, e = .create i api ∧
      s' = (s.create c api).1.setPhase i (s.create c api).2) ∨
    (∃ i c l left api, e = .replace i api ∧ s.phase i = .claiming c l left ∧
      s' = (s.replace c l left api).1.setPhase i (s.replace c l left api).2) := by
  unfold Steps at h
  cases e with
  | wait d =>
    obtain ⟨hd, heq⟩ := Option.ite_none_right_eq_some.mp h
    exact .inl ⟨d, rfl, hd, (Option.some.inj heq).symm⟩
  | read i c api =>
    refine .inr (.inl ⟨i, c, api, rfl, ?_⟩)
    cases hphase : s.phase i <;> simp only [next, hphase] at h
    · exact (Option.some.inj h).symm
    all_goals cases h
  | decide i =>
    refine .inr (.inr (.inl ?_))
    cases hphase : s.phase i <;> simp only [next, hphase] at h
    case read c l => exact ⟨i, c, l, rfl, hphase, (Option.some.inj h).symm⟩
    all_goals cases h
  | create i api =>
    refine .inr (.inr (.inr (.inl ?_)))
    cases hphase : s.phase i <;> simp only [next, hphase] at h
    case absent c => exact ⟨i, c, api, rfl, (Option.some.inj h).symm⟩
    all_goals cases h
  | replace i api =>
    refine .inr (.inr (.inr (.inr ?_)))
    cases hphase : s.phase i <;> simp only [next, hphase] at h
    case claiming c l left => exact ⟨i, c, l, left, api, rfl, hphase, (Option.some.inj h).symm⟩
    all_goals cases h

def Phase.lease? : Phase → Option Lease
  | .read _ l | .claiming _ l _ => some l
  | _ => none

/-- A lease that was read is the present one as long as its version is, and one that is claimed
was written by a call. -/
def Known (lease : Option Lease) (version : ℕ) (l : Lease) : Prop :=
  l.resourceVersion ≤ version ∧ (l.Claimed → l.renewTime = none) ∧
    ∀ l' ∈ lease, l'.resourceVersion = l.resourceVersion → l' = l

structure Tracked (s : Cluster) : Prop where
  lease : ∀ l ∈ s.lease, Known s.lease s.version l
  seen : ∀ i, ∀ l ∈ (s.phase i).lease?, Known s.lease s.version l
  acquiring : ∀ i c l left, s.phase i = .claiming c l left → c.kind = .acquire → ¬ l.Claimed

theorem Initial.tracked (h : Initial s) : Tracked s where
  lease l hl := by
    refine ⟨(h.unclaimed l hl).2, fun hclaimed => absurd hclaimed (h.unclaimed l hl).1, ?_⟩
    intro l' hl' _
    exact Option.some.inj (hl'.symm.trans hl)
  seen i l hl := by
    rw [h.idle i] at hl
    cases hl
  acquiring i c l left hphase := by
    rw [h.idle i] at hphase
    cases hphase

theorem Tracked.setPhase (h : Tracked s) (i : ℕ) {p : Phase}
    (hseen : ∀ l ∈ p.lease?, Known s.lease s.version l)
    (hacquiring : ∀ c l left, p = .claiming c l left → c.kind = .acquire → ¬ l.Claimed) :
    Tracked (s.setPhase i p) where
  lease := h.lease
  seen j := by
    by_cases hj : j = i
    · subst hj
      rw [Cluster.phase_setPhase_self]
      exact hseen
    · rw [Cluster.phase_setPhase_of_ne s hj]
      exact h.seen j
  acquiring j := by
    by_cases hj : j = i
    · subst hj
      simpa only [Cluster.phase_setPhase_self] using hacquiring
    · simpa only [Cluster.phase_setPhase_of_ne s hj] using h.acquiring j

theorem Known.write {l : Lease} (h : Known s.lease s.version l) (c : Call) :
    Known (s.write c).lease (s.write c).version l := by
  obtain ⟨hold, hrenew, -⟩ := h
  refine ⟨Nat.le_succ_of_le hold, hrenew, ?_⟩
  intro l' hl' hversion
  obtain rfl := Option.some.inj hl'
  exact absurd (hversion ▸ hold) (Nat.not_succ_le_self _)

theorem Tracked.write (h : Tracked s) (c : Call) : Tracked (s.write c) where
  lease l hl := by
    obtain rfl := Option.some.inj hl
    refine ⟨le_rfl, fun _ => rfl, ?_⟩
    intro l' hl' _
    exact (Option.some.inj hl').symm
  seen i l hl := (h.seen i l hl).write c
  acquiring := h.acquiring

theorem lease?_afterRead {lease : Option Lease} {c : Call} {api : Api} :
    ∀ l ∈ (afterRead lease c api).lease?, l ∈ lease := by
  intro l hl
  unfold afterRead at hl
  cases api with
  | answers =>
    cases lease with
    | some l' => exact hl
    | none => cases hkind : c.kind <;> simp [hkind, Phase.lease?] at hl
  | apiException applied => cases hl
  | raises applied => cases hl

theorem afterRead_not_claiming {lease : Option Lease} {c : Call} {api : Api} {c' : Call}
    {l : Lease} {left : ℕ} : afterRead lease c api ≠ .claiming c' l left := by
  unfold afterRead
  cases api with
  | answers =>
    cases lease with
    | some l' => nofun
    | none => cases hkind : c.kind <;> nofun
  | apiException applied => nofun
  | raises applied => nofun

/-- A lease that is claimed has no renew time, so it is never stale. -/
theorem stale_iff {c : Call} {l : Lease} {now : ℚ} (h : l.Claimed → l.renewTime = none) :
    Stale c l now ↔ ¬ l.Claimed := by
  refine ⟨?_, .inl⟩
  intro hstale hclaimed
  rcases hstale with hfree | ⟨t, ht, -⟩
  · exact hfree hclaimed
  · rw [h hclaimed] at ht
    cases ht

theorem decideLease_cases (cfg : Config) (c : Call) (l : Lease) (now : ℚ) :
    (decideLease cfg c l now = .claiming c l (attempts cfg) ∧
      (c.kind = .acquire → Stale c l now)) ∨
    ((∃ r, decideLease cfg c l now = .done c r) ∧ (c.kind = .acquire → ¬ Stale c l now)) := by
  unfold decideLease
  cases hkind : c.kind with
  | acquire =>
    by_cases hstale : Stale c l now
    · exact .inl ⟨if_pos hstale, fun _ => hstale⟩
    · exact .inr ⟨⟨_, if_neg hstale⟩, fun _ => hstale⟩
  | renew =>
    by_cases hdue : Due cfg c l now
    · exact .inl ⟨if_pos hdue, nofun⟩
    · exact .inr ⟨⟨_, if_neg hdue⟩, nofun⟩

theorem replace_phase_cases (s : Cluster) (c : Call) (l : Lease) (left : ℕ) (api : Api) :
    (s.replace c l left api).2 = .claiming c l (left - 1) ∨
      ∃ r, (s.replace c l left api).2 = .done c r := by
  unfold Cluster.replace
  cases api with
  | answers => by_cases h : s.Unchanged l <;> by_cases hleft : left ≤ 1 <;> simp [h, hleft]
  | apiException applied => by_cases hleft : left ≤ 1 <;> simp [hleft]
  | raises applied => exact .inr ⟨_, rfl⟩

theorem Known.ite_write {l : Lease} (h : Known s.lease s.version l) (c : Call) (writes : Prop)
    [Decidable writes] :
    Known (if writes then s.write c else s).lease (if writes then s.write c else s).version l := by
  by_cases hwrites : writes
  · simpa only [if_pos hwrites] using h.write c
  · simpa only [if_neg hwrites] using h

theorem Tracked.ite_write (h : Tracked s) (c : Call) (writes : Prop) [Decidable writes] :
    Tracked (if writes then s.write c else s) := by
  by_cases hwrites : writes
  · simpa only [if_pos hwrites] using h.write c
  · simpa only [if_neg hwrites] using h

theorem Tracked.create (h : Tracked s) (c : Call) (api : Api) : Tracked (s.create c api).1 :=
  h.ite_write c _

theorem Tracked.replace (h : Tracked s) (c : Call) (l : Lease) (left : ℕ) (api : Api) :
    Tracked (s.replace c l left api).1 :=
  h.ite_write c _

theorem Tracked.step (h : Tracked s) (hstep : Steps cfg s e s') : Tracked s' := by
  obtain ⟨d, -, -, rfl⟩ | ⟨i, c, api, -, rfl⟩ | ⟨i, c, l, -, hphase, rfl⟩ | ⟨i, c, api, -, rfl⟩ |
    ⟨i, c, l, left, api, -, hphase, rfl⟩ := step_cases hstep
  · exact ⟨h.lease, h.seen, h.acquiring⟩
  · refine h.setPhase i (fun l hl => h.lease l (lease?_afterRead l hl)) ?_
    intro c' l left hclaiming
    exact absurd hclaiming afterRead_not_claiming
  · have hknown : Known s.lease s.version l := h.seen i l (by rw [hphase]; rfl)
    rcases decideLease_cases cfg c l s.now with ⟨hdecided, hstale⟩ | ⟨⟨r, hdecided⟩, -⟩
    · rw [hdecided]
      refine h.setPhase i (fun l' hl' => Option.some.inj hl' ▸ hknown) ?_
      intro c' l' left hclaiming hacquire
      cases hclaiming
      exact (stale_iff hknown.2.1).mp (hstale hacquire)
    · rw [hdecided]
      exact h.setPhase i nofun nofun
  · exact (h.create c api).setPhase i (by cases api <;> exact nofun) (by cases api <;> exact nofun)
  · have hknown : Known s.lease s.version l := h.seen i l (by rw [hphase]; rfl)
    rcases replace_phase_cases s c l left api with hagain | ⟨r, hdone⟩
    · rw [hagain]
      refine (h.replace c l left api).setPhase i
        (fun l' hl' => Option.some.inj hl' ▸ hknown.ite_write c _) ?_
      intro c' l' left' hclaiming hacquire
      cases hclaiming
      exact h.acquiring i c l left hphase hacquire
    · rw [hdone]
      exact (h.replace c l left api).setPhase i nofun nofun

theorem Tracked.eq_of_unchanged (h : Tracked s) {i : ℕ} {c : Call} {l : Lease} {left : ℕ}
    (hphase : s.phase i = .claiming c l left) (hsame : s.Unchanged l) : s.lease = some l := by
  obtain ⟨l', hl', hversion⟩ := Option.map_eq_some_iff.mp hsame
  have hknown : Known s.lease s.version l := h.seen i l (by rw [hphase]; rfl)
  rw [hl', hknown.2.2 l' hl' hversion]

theorem undisplaced_of_lease_eq (h : s'.lease = s.lease) : Undisplaced s s' := by
  intro r l hl hholder _
  exact ⟨l, h.trans hl, hholder⟩

/-- A decision goes on to claim a lease that ran out exactly when it is not a region's. -/
theorem Tracked.acquirable_decide_iff (h : Tracked s) {i : ℕ} {c : Call} {l : Lease}
    (hphase : s.phase i = .read c l) :
    Acquirable s (.decide i) (s.setPhase i (decideLease cfg c l s.now)) ↔
      Careful s (.decide i) := by
  have hknown : Known s.lease s.version l := h.seen i l (by rw [hphase]; rfl)
  constructor
  · intro hacquirable c' l' r hphase' hacquire hholder hnamed hother
    obtain ⟨rfl, rfl⟩ := Phase.read.inj (hphase.symm.trans hphase')
    by_contra hexpired
    obtain ⟨left, hclaiming⟩ := hacquirable i c l r rfl hphase hacquire hholder hother hexpired
    rw [Cluster.phase_setPhase_self] at hclaiming
    rcases decideLease_cases cfg c l s.now with ⟨-, hstale⟩ | ⟨⟨_, hdone⟩, -⟩
    · exact (stale_iff hknown.2.1).mp (hstale hacquire) ⟨r, hholder, hnamed⟩
    · rw [hdone] at hclaiming
      cases hclaiming
  · intro hcareful j c' l' r hevent hphase' hacquire hholder hother hexpired
    obtain rfl := Event.decide.inj hevent
    obtain ⟨rfl, rfl⟩ := Phase.read.inj (hphase.symm.trans hphase')
    rw [Cluster.phase_setPhase_self]
    rcases decideLease_cases cfg c l s.now with ⟨hclaiming, -⟩ | ⟨-, hfresh⟩
    · exact ⟨_, hclaiming⟩
    · have hclaimed : l.Claimed := by
        by_contra hfree
        exact hfresh hacquire (.inl hfree)
      obtain ⟨holder, hsome, hnamed⟩ := hclaimed
      obtain rfl := Option.some.inj (hsome.symm.trans hholder)
      exact absurd (hcareful c l holder hphase hacquire hholder hnamed hother) hexpired

/-- An attempt displaces a region exactly when it lands on the lease that the region holds. -/
theorem Tracked.undisplaced_replace_iff (h : Tracked s) {i : ℕ} {c : Call} {l : Lease}
    {left : ℕ} {api : Api} (hphase : s.phase i = .claiming c l left) :
    Undisplaced s ((s.replace c l left api).1.setPhase i (s.replace c l left api).2) ↔
      Careful s (.replace i api) := by
  by_cases hwrites : s.Unchanged l ∧ api.reaches = true
  · have hlease := h.eq_of_unchanged hphase hwrites.1
    have hnew : (s.replace c l left api).1 = s.write c := if_pos hwrites
    constructor
    · intro hundisplaced c' l' left' r hphase' _ _ hholder hother _ hholds
      obtain ⟨rfl, rfl, rfl⟩ := Phase.claiming.inj (hphase.symm.trans hphase')
      obtain ⟨l', hl', hholder'⟩ := hundisplaced r l hlease hholder hholds
      rw [hnew] at hl'
      obtain rfl := Option.some.inj hl'
      exact hother (Option.some.inj hholder').symm
    · intro hcareful r l' hl' hholder hholds
      obtain rfl := Option.some.inj (hlease.symm.trans hl')
      by_cases hother : r = c.region
      · subst hother
        rw [hnew]
        exact ⟨_, rfl, rfl⟩
      · refine absurd hholds (hcareful c l left r hphase hwrites.1 hwrites.2 hholder hother ?_)
        cases hkind : c.kind with
        | renew => exact .inl rfl
        | acquire =>
          right
          by_contra hnamed
          exact h.acquiring i c l left hphase hkind ⟨r, hholder, hnamed⟩
  · have hold : (s.replace c l left api).1 = s := if_neg hwrites
    refine iff_of_true (undisplaced_of_lease_eq ?_) ?_
    · rw [hold]
      rfl
    · intro c' l' left' r hphase' hsame hreaches
      obtain ⟨rfl, rfl, rfl⟩ := Phase.claiming.inj (hphase.symm.trans hphase')
      exact absurd ⟨hsame, hreaches⟩ hwrites

theorem Tracked.promise_iff (h : Tracked s) (hstep : Steps cfg s e s') :
    Undisplaced s s' ∧ Acquirable s e s' ↔ Careful s e := by
  obtain ⟨d, rfl, -, rfl⟩ | ⟨i, c, api, rfl, rfl⟩ | ⟨i, c, l, rfl, hphase, rfl⟩ |
    ⟨i, c, api, rfl, rfl⟩ | ⟨i, c, l, left, api, rfl, hphase, rfl⟩ := step_cases hstep
  · exact iff_of_true ⟨undisplaced_of_lease_eq rfl, nofun⟩ trivial
  · exact iff_of_true ⟨undisplaced_of_lease_eq rfl, nofun⟩ trivial
  · rw [← h.acquirable_decide_iff hphase]
    exact and_iff_right (undisplaced_of_lease_eq rfl)
  · refine iff_of_true ⟨?_, nofun⟩ trivial
    intro r l hl _ _
    have hold : (s.create c api).1 = s := by
      refine if_neg ?_
      intro hnone
      rw [hl] at hnone
      cases hnone.1
    rw [hold]
    exact undisplaced_of_lease_eq rfl r l hl ‹_› ‹_›
  · rw [← h.undisplaced_replace_iff hphase]
    exact and_iff_left nofun

def Named (s : Cluster) : Prop :=
  ∀ r, Holds s r → ∃ l, s.lease = some l ∧ l.holderIdentity = some r

theorem Named.atMostOne (h : Named s) : AtMostOne s := by
  intro r r' hr hr'
  obtain ⟨l, hl, hholder⟩ := h r hr
  obtain ⟨l', hl', hholder'⟩ := h r' hr'
  obtain rfl := Option.some.inj (hl.symm.trans hl')
  exact Option.some.inj (hholder.symm.trans hholder')

theorem Initial.named (h : Initial s) : Named s := by
  intro r ⟨t, ht, _⟩
  rw [h.unheld r] at ht
  cases ht

theorem named_write {c : Call} (h : ∀ r, Holds s r → r = c.region) : Named (s.write c) := by
  intro r ⟨t, ht, hnow⟩
  refine ⟨_, rfl, congrArg some ?_⟩
  by_cases hr : r = c.region
  · exact hr.symm
  · rw [Cluster.heldUntil_write_of_ne s hr] at ht
    exact (h r ⟨t, ht, hnow⟩).symm

theorem Named.step (h : Named s) (htracked : Tracked s) (hstep : Steps cfg s e s')
    (hcareful : Careful s e) : Named s' := by
  obtain ⟨d, rfl, hd, rfl⟩ | ⟨i, c, api, rfl, rfl⟩ | ⟨i, c, l, rfl, hphase, rfl⟩ |
    ⟨i, c, api, rfl, rfl⟩ | ⟨i, c, l, left, api, rfl, hphase, rfl⟩ := step_cases hstep
  · intro r ⟨t, ht, hnow⟩
    exact h r ⟨t, ht, (le_add_of_nonneg_right hd).trans hnow⟩
  · exact h
  · exact h
  · change Named (s.create c api).1
    by_cases hwrites : s.lease = none ∧ api.reaches = true
    · rw [show (s.create c api).1 = s.write c from if_pos hwrites]
      refine named_write ?_
      intro r hholds
      obtain ⟨l, hl, -⟩ := h r hholds
      rw [hwrites.1] at hl
      cases hl
    · rw [show (s.create c api).1 = s from if_neg hwrites]
      exact h
  · change Named (s.replace c l left api).1
    by_cases hwrites : s.Unchanged l ∧ api.reaches = true
    · rw [show (s.replace c l left api).1 = s.write c from if_pos hwrites]
      have hlease := htracked.eq_of_unchanged hphase hwrites.1
      refine named_write ?_
      intro r hholds
      obtain ⟨l', hl', hholder⟩ := h r hholds
      by_contra hother
      obtain ⟨l'', hl'', hholder'⟩ :=
        (htracked.undisplaced_replace_iff hphase).mpr hcareful r l' hl' hholder hholds
      change (s.replace c l left api).1.lease = some l'' at hl''
      rw [show (s.replace c l left api).1 = s.write c from if_pos hwrites] at hl''
      obtain rfl := Option.some.inj hl''
      exact hother (Option.some.inj hholder').symm
    · rw [show (s.replace c l left api).1 = s from if_neg hwrites]
      exact h

end Steps

/-- Every state of the run has one holder at most, and every step keeps a holder in its place and
lets another region claim a lease that has run out. -/
structure Promise (cfg : Config) (s : Cluster) (es : List Event) : Prop where
  atMostOne : ∀ before after u, es = before ++ after → Run (Steps cfg) s before u → AtMostOne u
  undisplaced : ∀ before e after u v, es = before ++ e :: after →
    Run (Steps cfg) s before u → Steps cfg u e v → Undisplaced u v
  acquirable : ∀ before e after u v, es = before ++ e :: after →
    Run (Steps cfg) s before u → Steps cfg u e v → Acquirable u e v

theorem tracked_run {cfg : Config} {s u : Cluster} {es : List Event} (h : Initial s)
    (hrun : Run (Steps cfg) s es u) : Tracked u :=
  hrun.invariant (fun _ _ _ hold hstep => hold.step hstep) h.tracked

theorem named_run {cfg : Config} {s u : Cluster} {es : List Event} (h : Initial s)
    (hrun : Run (Steps cfg) s es u)
    (hcareful : ∀ before e after v w, es = before ++ e :: after → Run (Steps cfg) s before v →
      Steps cfg v e w → Careful v e) : Named u := by
  induction hrun with
  | refl => exact h.named
  | @tail t u es e hrun hstep ih =>
    refine (ih ?_).step (tracked_run h hrun) hstep (hcareful es e [] t u rfl hrun hstep)
    intro before e' after v w hes hv hw
    exact hcareful before e' (after ++ [e]) v w (by rw [hes]; simp) hv hw

/-- A run keeps the promise of the lease exactly when all of its steps are careful. -/
theorem promise_iff_careful (cfg : Config) (s : Cluster) (hinitial : Initial s)
    (es : List Event) :
    Promise cfg s es ↔ ∀ before e after u v, es = before ++ e :: after →
      Run (Steps cfg) s before u → Steps cfg u e v → Careful u e := by
  constructor
  · intro hpromise before e after u v hes hu hstep
    exact ((tracked_run hinitial hu).promise_iff hstep).mp
      ⟨hpromise.undisplaced before e after u v hes hu hstep,
        hpromise.acquirable before e after u v hes hu hstep⟩
  · intro hcareful
    constructor
    · intro before after u hes hu
      refine (named_run hinitial hu ?_).atMostOne
      intro before' e after' v w hes' hv hw
      exact hcareful before' e (after' ++ after) v w (by rw [hes, hes']; simp) hv hw
    · intro before e after u v hes hu hstep
      exact (((tracked_run hinitial hu).promise_iff hstep).mpr
        (hcareful before e after u v hes hu hstep)).1
    · intro before e after u v hes hu hstep
      exact (((tracked_run hinitial hu).promise_iff hstep).mpr
        (hcareful before e after u v hes hu hstep)).2

def defaults : Config := ⟨3, 10⟩

def noLease : Cluster := ⟨0, none, 0, fun _ => .idle, fun _ => none⟩

theorem noLease_initial : Initial noLease := ⟨nofun, fun _ => rfl, fun _ => rfl⟩

def east (kind : Kind) : Call := ⟨kind, "us-east-1", 30⟩

def west (kind : Kind) : Call := ⟨kind, "eu-west-1", 30⟩

instance (s : Cluster) (region : String) : Decidable (Holds s region) :=
  decidable_of_iff (∃ t ∈ s.heldUntil region, s.now ≤ t) Iff.rfl

theorem careful_replace_iff {s : Cluster} {i : ℕ} {c : Call} {l : Lease} {left : ℕ} {api : Api}
    (h : s.phase i = .claiming c l left) : (s.Unchanged l → api.reaches = true →
      ∀ r ∈ l.holderIdentity, r ≠ c.region → (c.kind = .renew ∨ r = "") → ¬ Holds s r) ↔
        Careful s (.replace i api) := by
  constructor
  · intro hcareful c' l' left' r hphase hunchanged hreaches hholder
    cases h.symm.trans hphase
    exact hcareful hunchanged hreaches r hholder
  · intro hcareful hunchanged hreaches r hholder
    exact hcareful c l left r h hunchanged hreaches hholder

theorem careful_decide_iff {s : Cluster} {i : ℕ} {c : Call} {l : Lease}
    (h : s.phase i = .read c l) : (c.kind = .acquire → ∀ r ∈ l.holderIdentity, r ≠ "" →
      r ≠ c.region → Holds s r) ↔ Careful s (.decide i) := by
  constructor
  · intro hcareful c' l' r hphase hkind hholder
    cases h.symm.trans hphase
    exact hcareful hkind r hholder
  · intro hcareful hkind r hholder
    exact hcareful c l r h hkind hholder

instance (s : Cluster) (e : Event) : Decidable (Careful s e) :=
  match e with
  | .replace i _ =>
    match h : s.phase i with
    | .claiming _ _ _ => decidable_of_iff _ (careful_replace_iff h)
    | .idle | .absent _ | .read _ _ | .done _ _ => isTrue (by simp [Careful, h])
  | .decide i =>
    match h : s.phase i with
    | .read _ _ => decidable_of_iff _ (careful_decide_iff h)
    | .idle | .absent _ | .claiming _ _ _ | .done _ _ => isTrue (by simp [Careful, h])
  | .wait _ | .read _ _ _ | .create _ _ => isTrue trivial

/-- The first region takes the lease and renews it in time, and the second asks for it in vain. -/
def contended : List Event :=
  [.read 0 (east .acquire) .answers, .create 0 .answers, .wait 10,
    .read 1 (west .acquire) .answers, .read 2 (east .renew) .answers, .decide 1, .decide 2,
    .replace 2 .answers, .wait 25]

theorem contended_careful : ((contended.foldlM fun s e =>
    if Careful s e then next defaults s e else none) noLease).isSome := by
  decide +kernel

theorem promise_one_region : Promise defaults noLease contended ∧
    ∃ s, Run (Steps defaults) noLease contended s ∧ Holds s "us-east-1" ∧
      s.phase 1 = .done (west .acquire) .notHeld := by
  constructor
  · refine (promise_iff_careful defaults noLease noLease_initial _).mpr ?_
    intro before e after u v hes hu _
    obtain ⟨s, hs⟩ := Option.isSome_iff_exists.mp contended_careful
    rw [hes] at hs
    exact guard_of_foldlM hs hu
  · have hrun := run_iff_foldlM.mpr (Option.some_get contended_careful).symm
    refine ⟨_, hrun.mono fun _ _ _ hstep => hstep.1, ?_, ?_⟩
    · decide +kernel
    · decide +kernel

/-- The first region takes the lease, and the second renews it at once. -/
def displacing : List Event :=
  [.read 0 (east .acquire) .answers, .create 0 .answers, .read 1 (west .renew) .answers,
    .decide 1, .replace 1 .answers]

/-- The first region takes the lease and stops, and the second asks for it much later. -/
def abandoning : List Event :=
  [.read 0 (east .acquire) .answers, .create 0 .answers, .wait 1000,
    .read 1 (west .acquire) .answers, .decide 1]

theorem displacing_shared : ∃ s, Run (Steps defaults) noLease displacing s ∧
    Holds s "us-east-1" ∧ Holds s "eu-west-1" := by
  refine ⟨_, run_cons_iff.mpr ⟨_, rfl, run_cons_iff.mpr ⟨_, rfl, run_cons_iff.mpr ⟨_, rfl,
    run_cons_iff.mpr ⟨_, rfl, run_cons_iff.mpr ⟨_, rfl, .refl _⟩⟩⟩⟩⟩, ?_, ?_⟩
  · exact ⟨30, by decide +kernel, by decide +kernel⟩
  · exact ⟨30, by decide +kernel, by decide +kernel⟩

theorem abandoning_refused : ∃ u v, Run (Steps defaults) noLease (abandoning.take 4) u ∧
    Steps defaults u (.decide 1) v ∧ ¬ Acquirable u (.decide 1) v := by
  refine ⟨_, _, run_cons_iff.mpr ⟨_, rfl, run_cons_iff.mpr ⟨_, rfl, run_cons_iff.mpr ⟨_, rfl,
    run_cons_iff.mpr ⟨_, rfl, .refl _⟩⟩⟩⟩, rfl, ?_⟩
  intro hacquirable
  obtain ⟨left, hclaiming⟩ := hacquirable 1 (west .acquire) ⟨some "us-east-1", none, 1⟩
    "us-east-1" rfl (by decide +kernel) rfl rfl (by decide) (by
      intro ⟨t, ht, hnow⟩
      obtain rfl : 30 = t := Option.some.inj (Eq.trans (by decide +kernel) ht)
      exact absurd hnow (by decide +kernel))
  have hrefused : decideLease defaults (west .acquire) ⟨some "us-east-1", none, 1⟩ 1000 =
      .done (west .acquire) .notHeld := by decide +kernel
  cases hclaiming.symm.trans (Eq.trans (by decide +kernel) hrefused)

theorem not_promise_two_regions :
    ¬ Promise defaults noLease displacing ∧ ¬ Promise defaults noLease abandoning := by
  constructor
  · intro hpromise
    obtain ⟨s, hrun, heast, hwest⟩ := displacing_shared
    have hone := hpromise.atMostOne displacing [] s (List.append_nil _).symm hrun
    exact absurd (hone _ _ heast hwest) (by decide)
  · intro hpromise
    obtain ⟨u, v, hrun, hstep, hrefused⟩ := abandoning_refused
    exact hrefused (hpromise.acquirable _ (.decide 1) [] u v rfl hrun hstep)

end SorobanLease
