import LedgerLens.FederatedServer

/-!
# The growth of the sample counts

What is accepted from the participants and credited to them, round by round. The growth check
compares a count with the history of its participant, which a registration empties and each
accepted submission raises, also within a round.
-/
namespace FederatedGrowth

open FederatedServer Krum

variable {d : ℕ} {Key Sig Party : Type}

structure Entry where
  participantId : String
  round : ℕ
  nSamples : ℤ
  deriving DecidableEq, Repr

def entry (round : ℕ) (u : Update d) : Entry := ⟨u.participantId, round, u.nSamples⟩

structure System (d : ℕ) (Key : Type) where
  server : Server d Key
  accepted : List Entry
  credited : List Entry

def System.earlier (w : System d Key) (participantId : String) (round : ℕ) : List Entry :=
  w.accepted.filter fun a => a.participantId = participantId ∧ a.round < round

/-- A count of a participant in a round keeps to the growth limit. -/
def Limited (c : Config) (w : System d Key) (e : Entry) : Prop :=
  ∀ a ∈ w.earlier e.participantId e.round,
    (∀ b ∈ w.earlier e.participantId e.round, b.nSamples ≤ a.nSamples) →
    (e.nSamples : ℚ) ≤ c.maxNSamplesGrowthFactor * a.nSamples

section

variable (c : Config) (lib : Libraries d Key Sig)

def acceptedBy (s : Server d Key) : Call d Key Sig Party → Option (Update d)
  | .submit u _ =>
    match admission c lib s u with
    | .error _ => none
    | .ok (_, update) => if update.valid then some update else none
  | _ => none

def System.next (w : System d Key) (call : Call d Key Sig Party) : System d Key where
  server := FederatedServer.next c lib w.server call
  accepted := w.accepted ++
    ((acceptedBy c lib w.server call).map (entry w.server.roundNumber)).toList
  credited := w.credited ++
    ((completedBy c lib w.server call).getD []).map (entry w.server.roundNumber)

/-- Nobody registers again after a count was accepted. Who has been accepted in an earlier round
submits as long as no more has been accepted in this one, and a first count is positive. -/
def Steady (w : System d Key) : Call d Key Sig Party → Prop
  | .register _ participantId _ => ∀ a ∈ w.accepted, a.participantId ≠ participantId
  | .submit u _ =>
    (∀ a ∈ w.accepted, a.participantId = u.participantId → a.round = w.server.roundNumber →
      w.earlier u.participantId w.server.roundNumber ≠ [] →
      ∃ b ∈ w.earlier u.participantId w.server.roundNumber, a.nSamples ≤ b.nSamples) ∧
    ((∀ a ∈ w.accepted, a.participantId = u.participantId → a.nSamples ≤ 0) → 0 < u.nSamples)
  | _ => True

instance (w : System d Key) : (call : Call d Key Sig Party) → Decidable (Steady w call)
  | .register _ _ _ => inferInstanceAs (Decidable (∀ a ∈ w.accepted, _))
  | .submit _ _ => inferInstanceAs (Decidable (_ ∧ _))
  | .admitParticipant _ _ => inferInstanceAs (Decidable True)
  | .revoke _ => inferInstanceAs (Decidable True)
  | .forceAggregate _ => inferInstanceAs (Decidable True)

end

def System.init (start : Server d Key) : System d Key := ⟨start, [], []⟩

structure History (w : System d Key) (participantId : String) (p : Participant Key) : Prop where
  bound : ∀ a ∈ w.accepted, a.participantId = participantId → a.nSamples ≤ p.nSamplesHistoryMax
  attained : p.nSamplesHistoryMax = 0 ∨
    ∃ a ∈ w.accepted, a.participantId = participantId ∧ a.nSamples = p.nSamplesHistoryMax
  positive : (∃ a ∈ w.accepted, a.participantId = participantId) → 0 < p.nSamplesHistoryMax
  nonneg : 0 ≤ p.nSamplesHistoryMax
  ceiling : ∀ m ∈ p.maxNSamples, 0 < m

structure Invariant (c : Config) (w : System d Key) : Prop where
  admissions : ∀ id a, w.server.admissions id = some a → 0 < a.maxNSamples
  rounds : ∀ a ∈ w.accepted, a.round ≤ w.server.roundNumber
  history : ∀ id p, w.server.participants id = some p → History w id p
  registered : ∀ a ∈ w.accepted, ∃ p, w.server.participants a.participantId = some p
  pending : ∀ u ∈ w.server.pendingUpdates, u.valid = true →
    Limited c w (entry w.server.roundNumber u) ∧
      ∃ a ∈ w.accepted, a.participantId = u.participantId ∧ a.nSamples = u.nSamples
  credited : ∀ e ∈ w.credited, e.round < w.server.roundNumber ∧ Limited c w e

variable {c : Config} {lib : Libraries d Key Sig} {w w' : System d Key}

theorem mem_earlier {participantId : String} {round : ℕ} {a : Entry} :
    a ∈ w.earlier participantId round ↔
      a ∈ w.accepted ∧ a.participantId = participantId ∧ a.round < round := by
  simp [System.earlier]

theorem Limited.mono {e : Entry} (h : Limited c w e)
    (hsame : ∀ a, a.round < e.round → (a ∈ w'.accepted ↔ a ∈ w.accepted)) : Limited c w' e := by
  have hearlier (a : Entry) :
      a ∈ w'.earlier e.participantId e.round ↔ a ∈ w.earlier e.participantId e.round := by
    rw [mem_earlier, mem_earlier]
    constructor
    · intro ha
      exact ⟨(hsame a ha.2.2).mp ha.1, ha.2⟩
    · intro ha
      exact ⟨(hsame a ha.2.2).mpr ha.1, ha.2⟩
  intro a ha hmax
  exact h a ((hearlier a).mp ha) fun b hb => hmax b ((hearlier b).mpr hb)

theorem History.of_accepted {id : String} {p p' : Participant Key} (h : History w id p)
    (hsame : ∀ a, a.participantId = id → (a ∈ w'.accepted ↔ a ∈ w.accepted))
    (hmax : p'.nSamplesHistoryMax = p.nSamplesHistoryMax)
    (hceiling : p'.maxNSamples = p.maxNSamples) : History w' id p' := by
  constructor
  · intro a ha hid
    rw [hmax]
    exact h.bound a ((hsame a hid).mp ha) hid
  · rw [hmax]
    apply h.attained.imp_right
    rintro ⟨a, ha, hid, heq⟩
    exact ⟨a, (hsame a hid).mpr ha, hid, heq⟩
  · rintro ⟨a, ha, hid⟩
    rw [hmax]
    exact h.positive ⟨a, (hsame a hid).mp ha, hid⟩
  · rw [hmax]
    exact h.nonneg
  · rw [hceiling]
    exact h.ceiling

section Acceptance

variable {u : Submission d Sig} {p : Participant Key} {update : Update d}

theorem screen_nSamples (hadmission : admission c lib w.server u = .ok (p, update)) :
    update.participantId = u.participantId ∧ update.nSamples = effectiveNSamples p u.nSamples := by
  obtain ⟨-, -, -, rfl⟩ := admission_eq_ok hadmission
  exact ⟨rfl, rfl⟩

theorem effectiveNSamples_pos (hceiling : ∀ m ∈ p.maxNSamples, 0 < m) {n : ℤ} (hn : 0 < n) :
    0 < effectiveNSamples p n := by
  unfold effectiveNSamples
  split
  · exact hn
  · rename_i m hm
    exact lt_min hn (hceiling m hm)

theorem nSamples_le_of_valid (hadmission : admission c lib w.server u = .ok (p, update))
    (hvalid : update.valid = true) (hhistory : 0 < p.nSamplesHistoryMax) :
    (update.nSamples : ℚ) ≤ c.maxNSamplesGrowthFactor * p.nSamplesHistoryMax := by
  obtain ⟨-, -, -, rfl⟩ := admission_eq_ok hadmission
  by_contra hlarge
  have hexceeds : c.maxNSamplesGrowthFactor * p.nSamplesHistoryMax <
      (effectiveNSamples p u.nSamples : ℚ) := not_le.mp hlarge
  have hgrowth : growthExclusion c p (effectiveNSamples p u.nSamples) ≠ none := by
    simp [growthExclusion, hhistory, hexceeds]
  have hnone : (screen c lib w.server p u).exclusion = none := by
    simpa [Update.valid] using hvalid
  exact hgrowth (Option.or_eq_none_iff.mp hnone).2

theorem limited_of_valid (h : Invariant c w)
    (hadmission : admission c lib w.server u = .ok (p, update)) (hvalid : update.valid = true)
    {draw : Draw d} (hsteady : Steady w (.submit u draw : Call d Key Sig Party)) :
    Limited c w (entry w.server.roundNumber update) := by
  obtain ⟨hregistered, -⟩ := admission_eq_ok hadmission
  obtain ⟨hid, -⟩ := screen_nSamples hadmission
  have hhistory := h.history _ _ hregistered
  intro a ha hmax
  simp only [entry, hid] at ha hmax ⊢
  obtain ⟨hmem, haid, -⟩ := mem_earlier.mp ha
  have hpositive := hhistory.positive ⟨a, hmem, haid⟩
  have hle := nSamples_le_of_valid hadmission hvalid hpositive
  have hsame : p.nSamplesHistoryMax = a.nSamples := by
    apply le_antisymm
    · obtain ⟨top, htop, htopid, heq⟩ := hhistory.attained.resolve_left hpositive.ne'
      rw [← heq]
      rcases (h.rounds top htop).lt_or_eq with hlt | hround
      · exact hmax top (mem_earlier.mpr ⟨htop, htopid, hlt⟩)
      · obtain ⟨b, hb, hlarger⟩ := hsteady.1 top htop htopid hround (List.ne_nil_of_mem ha)
        exact hlarger.trans (hmax b hb)
    · exact hhistory.bound a hmem haid
  rwa [hsame] at hle

theorem History.accept (h : History w u.participantId p)
    (hadmission : admission c lib w.server u = .ok (p, update)) (hvalid : update.valid = true)
    {draw : Draw d} (hsteady : Steady w (.submit u draw : Call d Key Sig Party))
    (haccepted : w'.accepted = w.accepted ++ [entry w.server.roundNumber update]) :
    History w' u.participantId (p.record update) := by
  obtain ⟨hid, hcount⟩ := screen_nSamples hadmission
  have hmax : (p.record update).nSamplesHistoryMax =
      max p.nSamplesHistoryMax update.nSamples := if_pos hvalid
  have hpositive : 0 < (p.record update).nSamplesHistoryMax := by
    rw [hmax]
    by_cases hearlier : ∃ a ∈ w.accepted, a.participantId = u.participantId
    · exact lt_max_of_lt_left (h.positive hearlier)
    · apply lt_max_of_lt_right
      rw [hcount]
      apply effectiveNSamples_pos h.ceiling (hsteady.2 _)
      intro a ha hsame
      exact absurd ⟨a, ha, hsame⟩ hearlier
  constructor
  · intro a ha hsame
    rw [hmax]
    rw [haccepted, List.mem_append, List.mem_singleton] at ha
    rcases ha with ha | rfl
    · exact le_max_of_le_left (h.bound a ha hsame)
    · exact le_max_right _ _
  · right
    rw [hmax, haccepted]
    rcases le_total update.nSamples p.nSamplesHistoryMax with hle | hle
    · have hlarge : 0 < p.nSamplesHistoryMax := by
        rw [hmax, max_eq_left hle] at hpositive
        exact hpositive
      obtain ⟨a, ha, hsame, heq⟩ := h.attained.resolve_left hlarge.ne'
      exact ⟨a, List.mem_append_left _ ha, hsame, by rw [max_eq_left hle, heq]⟩
    · refine ⟨entry w.server.roundNumber update, by simp, hid, ?_⟩
      rw [max_eq_right hle]
      rfl
  · exact fun _ => hpositive
  · exact hpositive.le
  · exact h.ceiling

end Acceptance

def System.enter (c : Config) (lib : Libraries d Key Sig) (w : System d Key)
    (call : Call d Key Sig Party) : System d Key where
  server := FederatedServer.enter c lib w.server call
  accepted := w.accepted ++
    ((acceptedBy c lib w.server call).map (entry w.server.roundNumber)).toList
  credited := w.credited

theorem Invariant.frame {server : Server d Key} (h : Invariant c w)
    (hadmissions : ∀ id a, server.admissions id = some a → 0 < a.maxNSamples)
    (hhistory : ∀ id p, server.participants id = some p → History w id p)
    (hregistered : ∀ id, w.server.participants id ≠ none → server.participants id ≠ none)
    (hpending : server.pendingUpdates = w.server.pendingUpdates)
    (hround : server.roundNumber = w.server.roundNumber) :
    Invariant c { w with server := server } := by
  constructor
  · exact hadmissions
  · intro a ha
    simp only [hround]
    exact h.rounds a ha
  · exact fun id p hp => (hhistory id p hp).of_accepted (fun _ _ => Iff.rfl) rfl rfl
  · intro a ha
    obtain ⟨p, hp⟩ := h.registered a ha
    apply Option.ne_none_iff_exists'.mp
    exact hregistered _ (by simp [hp])
  · intro u hu hvalid
    simp only [hpending] at hu
    simp only [hround]
    obtain ⟨hlimited, haccepted⟩ := h.pending u hu hvalid
    exact ⟨hlimited.mono fun _ _ => Iff.rfl, haccepted⟩
  · intro e he
    simp only [hround]
    exact ⟨(h.credited e he).1, (h.credited e he).2.mono fun _ _ => Iff.rfl⟩

theorem ceilingOf_pos {s : Server d Key} (h : ∀ id a, s.admissions id = some a → 0 < a.maxNSamples)
    {id : String} {ceiling : Option ℤ} (hceiling : ceilingOf c s id = .ok ceiling) :
    ∀ m ∈ ceiling, 0 < m := by
  unfold ceilingOf at hceiling
  split_ifs at hceiling
  · split at hceiling
    · cases hceiling
    · rename_i a ha
      split_ifs at hceiling
      obtain rfl := Except.ok.inj hceiling
      intro m hm
      obtain rfl := Option.some.inj hm
      exact h id a ha
  · obtain rfl := Except.ok.inj hceiling
    simp

theorem Invariant.admitParticipant (h : Invariant c w) (id : String) (n : ℤ) :
    Invariant c { w with server := (admitParticipant w.server id n).1 } := by
  unfold FederatedServer.admitParticipant
  split_ifs with hn hid
  · exact h
  · exact h
  · refine h.frame ?_ h.history (fun _ hregistered => hregistered) rfl rfl
    intro id' a ha
    by_cases heq : id' = id
    · subst heq
      obtain rfl : _ = a := by simpa using ha
      exact not_le.mp hn
    · simp only [Function.update_of_ne heq] at ha
      exact h.admissions id' a ha

theorem Invariant.revokeAdmission (h : Invariant c w) (id : String) :
    Invariant c { w with server := revokeAdmission w.server id } := by
  unfold FederatedServer.revokeAdmission
  split
  · exact h
  · rename_i b hb
    refine h.frame ?_ h.history (fun _ hregistered => hregistered) rfl rfl
    intro id' a ha
    by_cases heq : id' = id
    · subst heq
      obtain rfl : _ = a := by simpa using ha
      exact h.admissions id' b hb
    · simp only [Function.update_of_ne heq] at ha
      exact h.admissions id' a ha

theorem Invariant.registerParticipant (h : Invariant c w) (id : String) (publicKey : Option Key)
    (hfresh : ∀ a ∈ w.accepted, a.participantId ≠ id) :
    Invariant c { w with server := (registerParticipant c w.server id publicKey).1 } := by
  unfold FederatedServer.registerParticipant
  split
  · exact h
  · rename_i key
    split
    · exact h
    · rename_i ceiling hceiling
      refine h.frame h.admissions ?_ ?_ rfl rfl
      · intro id' p hp
        by_cases heq : id' = id
        · subst heq
          obtain rfl : _ = p := by simpa using hp
          constructor
          · exact fun a ha hsame => absurd hsame (hfresh a ha)
          · exact .inl rfl
          · rintro ⟨a, ha, hsame⟩
            exact absurd hsame (hfresh a ha)
          · exact le_rfl
          · exact ceilingOf_pos h.admissions hceiling
        · simp only [Function.update_of_ne heq] at hp
          exact h.history id' p hp
      · intro id' hid'
        by_cases heq : id' = id
        · simp [heq]
        · simpa [Function.update_of_ne heq] using hid'

theorem Invariant.accept (h : Invariant c w) {u : Submission d Sig} {p : Participant Key}
    {update : Update d} {draw : Draw d} (hadmission : admission c lib w.server u = .ok (p, update))
    (hsteady : Steady w (.submit u draw : Call d Key Sig Party)) :
    Invariant c (w.enter c lib (.submit u draw : Call d Key Sig Party)) := by
  obtain ⟨hregistered, -⟩ := admission_eq_ok hadmission
  obtain ⟨hid, -⟩ := screen_nSamples hadmission
  have hserver : (w.enter c lib (.submit u draw : Call d Key Sig Party)).server =
      w.server.accept p update := by
    simp only [System.enter, FederatedServer.enter, hadmission]
  have haccepted : (w.enter c lib (.submit u draw : Call d Key Sig Party)).accepted =
      w.accepted ++ if update.valid then [entry w.server.roundNumber update] else [] := by
    simp only [System.enter, acceptedBy, hadmission]
    split_ifs <;> rfl
  have hmem (a : Entry) :
      a ∈ (w.enter c lib (.submit u draw : Call d Key Sig Party)).accepted ↔
        a ∈ w.accepted ∨ (update.valid = true ∧ a = entry w.server.roundNumber update) := by
    rw [haccepted]
    split_ifs with hvalid <;> simp [hvalid]
  have hearlier (a : Entry) (ha : a.round < w.server.roundNumber) :
      a ∈ (w.enter c lib (.submit u draw : Call d Key Sig Party)).accepted ↔ a ∈ w.accepted := by
    rw [hmem]
    refine ⟨fun hor => hor.resolve_right ?_, .inl⟩
    rintro ⟨-, rfl⟩
    exact absurd ha (lt_irrefl _)
  constructor
  · rw [hserver]
    exact h.admissions
  · intro a ha
    rw [hserver]
    rcases (hmem a).mp ha with ha | ⟨-, rfl⟩
    · exact h.rounds a ha
    · exact le_rfl
  · intro id q hq
    rw [hserver] at hq
    by_cases heq : id = u.participantId
    · subst heq
      obtain rfl : p.record update = q := by
        simpa [Server.accept, hid] using hq
      have hhistory := h.history _ _ hregistered
      by_cases hvalid : update.valid = true
      · apply hhistory.accept hadmission hvalid hsteady
        rw [haccepted, if_pos hvalid]
      · apply hhistory.of_accepted
        · intro a _
          rw [hmem]
          simp [hvalid]
        · exact if_neg hvalid
        · rfl
    · have hq : w.server.participants id = some q := by
        simpa [Server.accept, hid, heq] using hq
      apply (h.history id q hq).of_accepted _ rfl rfl
      intro a hsame
      rw [hmem]
      refine ⟨fun hor => hor.resolve_right ?_, .inl⟩
      rintro ⟨-, rfl⟩
      exact heq (hsame.symm.trans hid)
  · intro a ha
    rw [hserver]
    by_cases heq : a.participantId = u.participantId
    · exact ⟨p.record update, by simp [Server.accept, hid, heq]⟩
    · rcases (hmem a).mp ha with ha | ⟨-, rfl⟩
      · obtain ⟨q, hq⟩ := h.registered a ha
        exact ⟨q, by simpa [Server.accept, hid, heq] using hq⟩
      · exact absurd hid heq
  · intro v hv hvalid
    rw [hserver] at hv ⊢
    rcases mem_setPending hv with rfl | hv
    · refine ⟨(limited_of_valid h hadmission hvalid hsteady).mono hearlier, ?_⟩
      exact ⟨_, (hmem _).mpr (.inr ⟨hvalid, rfl⟩), rfl, rfl⟩
    · obtain ⟨hlimited, a, ha, hsame⟩ := h.pending v hv hvalid
      exact ⟨hlimited.mono hearlier, a, (hmem a).mpr (.inl ha), hsame⟩
  · intro e he
    rw [hserver]
    obtain ⟨hround, hlimited⟩ := h.credited e he
    exact ⟨hround, hlimited.mono fun a ha => hearlier a (ha.trans hround)⟩

theorem Invariant.enter (h : Invariant c w) {call : Call d Key Sig Party}
    (hsteady : Steady w call) : Invariant c (w.enter c lib call) := by
  cases call with
  | admitParticipant id n =>
    simpa [System.enter, FederatedServer.enter, FederatedServer.next, acceptedBy] using
      h.admitParticipant id n
  | revoke id =>
    simpa [System.enter, FederatedServer.enter, FederatedServer.next, acceptedBy] using
      h.revokeAdmission id
  | register caller id publicKey =>
    simpa [System.enter, FederatedServer.enter, FederatedServer.next, acceptedBy] using
      h.registerParticipant id publicKey hsteady
  | submit u draw =>
    cases hadmission : admission c lib w.server u with
    | error e => simpa [System.enter, FederatedServer.enter, acceptedBy, hadmission] using h
    | ok r => exact h.accept hadmission hsteady
  | forceAggregate draw => simpa [System.enter, FederatedServer.enter, acceptedBy] using h

theorem Invariant.limited_again (h : Invariant c w) (hfactor : 1 ≤ c.maxNSamplesGrowthFactor)
    {u : Update d}
    (hu : ∃ a ∈ w.accepted, a.participantId = u.participantId ∧ a.nSamples = u.nSamples) :
    Limited c w (entry (w.server.roundNumber + 1) u) := by
  obtain ⟨own, hown, hid, hcount⟩ := hu
  have hearlier (b : Entry) (hb : b ∈ w.accepted) (hsame : b.participantId = u.participantId) :
      b ∈ w.earlier u.participantId (w.server.roundNumber + 1) :=
    mem_earlier.mpr ⟨hb, hsame, Nat.lt_succ_of_le (h.rounds b hb)⟩
  intro a _ hmax
  have hle : u.nSamples ≤ a.nSamples := hcount ▸ hmax own (hearlier own hown hid)
  have hpositive : 0 < a.nSamples := by
    obtain ⟨p, hp⟩ := h.registered own hown
    have hhistory := h.history _ _ hp
    have hhistory_pos := hhistory.positive ⟨own, hown, rfl⟩
    obtain ⟨top, htop, hsame, heq⟩ := hhistory.attained.resolve_left hhistory_pos.ne'
    exact (heq ▸ hhistory_pos).trans_le (hmax top (hearlier top htop (hsame.trans hid)))
  calc (u.nSamples : ℚ) ≤ a.nSamples := by exact_mod_cast hle
    _ ≤ c.maxNSamplesGrowthFactor * a.nSamples := by
      apply le_mul_of_one_le_left _ hfactor
      exact_mod_cast hpositive.le

theorem Invariant.next (h : Invariant c w) {call : Call d Key Sig Party} (hsteady : Steady w call)
    (hsaved : c.maxNSamplesGrowthFactor < 1 → call.saved = true) :
    Invariant c (w.next c lib call) := by
  have hentered : Invariant c (w.enter c lib call) := h.enter hsteady
  obtain ⟨hround, -⟩ := enter_spends_nothing c lib w.server call
  rcases next_cases c lib w.server call with ⟨hnone, hsame⟩ | ⟨updates, hsome, hcounted⟩
  · have heq : w.next c lib call =
        { w.enter c lib call with server := FederatedServer.next c lib w.server call } := by
      simp [System.next, System.enter, hnone]
    rw [heq]
    apply hentered.frame
    · rw [hsame.admissions]
      exact hentered.admissions
    · rw [hsame.participants]
      exact hentered.history
    · rw [hsame.participants]
      exact fun _ => id
    · exact hsame.pendingUpdates
    · exact hsame.roundNumber
  · have hnext : (w.next c lib call).server.roundNumber = w.server.roundNumber + 1 := by
      rw [← hround]
      exact hcounted.roundNumber
    constructor
    · intro id a ha
      rw [System.next, hcounted.admissions] at ha
      exact hentered.admissions id a ha
    · intro a ha
      rw [hnext]
      exact ((hentered.rounds a ha).trans_eq hround).trans (Nat.le_succ _)
    · intro id p hp
      rw [System.next, hcounted.participants] at hp
      exact (hentered.history id p hp).of_accepted (fun _ _ => Iff.rfl) rfl rfl
    · intro a ha
      rw [System.next, hcounted.participants]
      exact hentered.registered a ha
    · intro u hu hvalid
      rw [System.next, hcounted.pendingUpdates] at hu
      split_ifs at hu with hemptied
      · exact absurd hu List.not_mem_nil
      · have hfactor : 1 ≤ c.maxNSamplesGrowthFactor := not_lt.mp fun hlt => hemptied (hsaved hlt)
        obtain ⟨-, haccepted⟩ := hentered.pending u hu hvalid
        refine ⟨?_, haccepted⟩
        rw [hnext]
        have hagain := hentered.limited_again hfactor haccepted
        rw [System.enter, hround] at hagain
        exact hagain.mono fun _ _ => Iff.rfl
    · intro e he
      rw [hnext]
      simp only [System.next, hsome, Option.getD_some] at he
      rcases List.mem_append.mp he with he | he
      · obtain ⟨hbefore, hlimited⟩ := hentered.credited e he
        rw [System.enter, hround] at hbefore
        exact ⟨hbefore.trans (Nat.lt_succ_self _), hlimited.mono fun _ _ => Iff.rfl⟩
      · obtain ⟨u, hu, rfl⟩ := List.mem_map.mp he
        obtain ⟨hpending, hvalid⟩ := mem_completedBy hsome hu
        obtain ⟨hlimited, -⟩ := hentered.pending u hpending hvalid
        rw [System.enter, hround] at hlimited
        exact ⟨Nat.lt_succ_self _, hlimited.mono fun _ _ => Iff.rfl⟩

theorem invariant_init {start : Server d Key} (hparticipants : ∀ id, start.participants id = none)
    (hpending : start.pendingUpdates = [])
    (hadmissions : ∀ id a, start.admissions id = some a → 0 < a.maxNSamples) :
    Invariant c (.init start) := by
  constructor
  · exact hadmissions
  · intro a ha
    exact absurd ha List.not_mem_nil
  · intro id p hp
    rw [System.init, hparticipants] at hp
    cases hp
  · intro a ha
    exact absurd ha List.not_mem_nil
  · intro u hu
    rw [System.init, hpending] at hu
    exact absurd hu List.not_mem_nil
  · intro e he
    exact absurd he List.not_mem_nil

/-- In a steady run, every credited count is at most the growth factor times
the largest count that was accepted from its participant in earlier rounds. A factor below 1, which
the settings refuse, also needs the audit records to be saved. -/
theorem credited_limited {start : Server d Key}
    (hparticipants : ∀ id, start.participants id = none) (hpending : start.pendingUpdates = [])
    (hadmissions : ∀ id a, start.admissions id = some a → 0 < a.maxNSamples)
    {calls : List (Call d Key Sig Party)}
    (hsaved : c.maxNSamplesGrowthFactor < 1 → ∀ call ∈ calls, call.saved = true)
    (hsteady : ∀ before call, before ++ [call] <+: calls →
      Steady (before.foldl (System.next c lib) (.init start)) call) :
    ∀ e ∈ (calls.foldl (System.next c lib) (.init start)).credited,
      Limited c (calls.foldl (System.next c lib) (.init start)) e := by
  have hinvariant : Invariant c (calls.foldl (System.next c lib) (.init start)) := by
    induction calls using List.reverseRecOn with
    | nil => exact invariant_init hparticipants hpending hadmissions
    | append_singleton calls call ih =>
      rw [List.foldl_append]
      apply Invariant.next
      · apply ih
        · exact fun hlt earlier hearlier => hsaved hlt earlier (List.mem_append_left _ hearlier)
        · exact fun before earlier hrun =>
            hsteady before earlier (hrun.trans (List.prefix_append _ _))
      · exact hsteady calls call List.prefix_rfl
      · exact fun hlt => hsaved hlt call (by simp)
  exact fun e he => (hinvariant.credited e he).2

section Examples

def absolute : Libraries 1 Unit Unit := .oneRow fun _ _ _ => true

def tripling : Config := { Config.default with minParticipants := 2 }

def idle : Server 1 Unit := .init tripling absolute (fun _ => some ⟨1000, false⟩) "r0" 0 0

def claim (id : String) (n : ℤ) : Call 1 Unit Unit Unit :=
  .submit ⟨id, fun _ => 1 / 2, n, ()⟩ ⟨fun _ => 0, "r", true⟩

/-- A round of ten samples each, and one in which the first participant submits the given
counts. -/
def climb (counts : List ℤ) : List (Call 1 Unit Unit Unit) :=
  [.register () "p" (some ()), .register () "q" (some ()), claim "p" 10, claim "q" 10] ++
    counts.map (claim "p") ++ [claim "q" 10]

def climbed (counts : List ℤ) : System 1 Unit :=
  (climb counts).foldl (System.next tripling absolute) (.init idle)

theorem credited_limited_thirty : (climbed [30]).credited.length = 4 ∧
    ∀ e ∈ (climbed [30]).credited, Limited tripling (climbed [30]) e := by
  refine ⟨by decide +kernel, ?_⟩
  apply credited_limited
  · exact fun _ => rfl
  · rfl
  · intro id a ha
    obtain rfl := Option.some.inj ha
    decide
  · exact fun _ => by decide
  · apply forall_steps
    decide +kernel

/-- The second of two submissions of one round is compared with the first. -/
theorem credited_above_limit : ¬ ∀ (d : ℕ) (Key Sig Party : Type) (c : Config)
    (lib : Libraries d Key Sig) (start : Server d Key) (calls : List (Call d Key Sig Party)),
    (∀ id, start.participants id = none) → start.pendingUpdates = [] →
    1 < c.maxNSamplesGrowthFactor →
    ∀ e ∈ (calls.foldl (System.next c lib) (.init start)).credited,
      Limited c (calls.foldl (System.next c lib) (.init start)) e := by
  intro h
  have hlimited := h 1 Unit Unit Unit tripling absolute idle (climb [30, 90]) (fun _ => rfl) rfl
    (by decide +kernel) ⟨"p", 1, 90⟩ (by decide +kernel) ⟨"p", 0, 10⟩ (by decide +kernel)
    (by decide +kernel)
  revert hlimited
  decide +kernel

end Examples

end FederatedGrowth
