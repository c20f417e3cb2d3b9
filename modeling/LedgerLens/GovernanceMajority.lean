import LedgerLens.GovernanceCommittee

/-!
# The majority behind a tally

A tally counts every vote that was cast, and the committee as it is now. Votes of people who have
left the committee since are counted too.
-/
namespace Governance

open LabelledRuns SqlTables

variable {Outside : Type} {services : Services Outside} {w w' : World Outside} {e : Event Outside}
  {s : Store} {id : ℕ} {key : String}

def Store.activeFor (s : Store) (id : ℕ) : ℕ := s.votes.rows.countP fun v =>
  v.proposalId = id && v.decision = .support && s.isCommitteeMember v.voter

def Store.formerFor (s : Store) (id : ℕ) : ℕ := s.votes.rows.countP fun v =>
  v.proposalId = id && v.decision = .support && !s.isCommitteeMember v.voter

def Store.Majority (s : Store) (id : ℕ) : Prop := s.committeeSize < 2 * s.activeFor id

/-- The active members have no majority for the proposal, and the others fill it up. -/
def Store.Tipped (s : Store) (id : ℕ) : Prop :=
  2 * s.activeFor id ≤ s.committeeSize ∧ s.committeeSize < 2 * (s.activeFor id + s.formerFor id)

def ClosesPassed (w w' : World Outside) (id : ℕ) : Prop :=
  ∃ row row', w.store.proposals.find? id = some row ∧ row.status = .active ∧
    w'.store.proposals.find? id = some row' ∧ row'.status = .passed

def Removes (w : World Outside) (e : Event Outside) (key : String) : Prop :=
  ∃ id effectAt now row, e = .executeProposal id effectAt now ∧
    w.store.proposals.find? id = some row ∧ row.status = .passed ∧
    row.proposalType = .committeeUpdate ∧ row.payload.get? "action" = some (.text "remove") ∧
    Names row key

def KeepsVoters (services : Services Outside) (id : ℕ) (w : World Outside) (e : Event Outside)
    (w' : World Outside) : Prop :=
  Step services w e w' ∧ ∀ v ∈ w.store.votes.rows, v.proposalId = id → v.decision = .support →
    ¬ Removes w e v.voter

theorem countVotes_support (s : Store) (id : ℕ) :
    s.countVotes id .support = s.activeFor id + s.formerFor id := by
  simp only [Store.countVotes, Store.activeFor, Store.formerFor]
  induction s.votes.rows with
  | nil => rfl
  | cons v rows ih =>
    rw [List.countP_cons, List.countP_cons, List.countP_cons, ih]
    cases s.isCommitteeMember v.voter <;> simp <;> omega

theorem outcome_eq_passed {forCount size : ℕ} : outcome forCount size = .passed ↔
    size < 2 * forCount := by
  rw [outcome, quorumRequired]
  split_ifs with h
  · exact iff_of_true rfl (by omega)
  · exact iff_of_false (by decide) (by omega)

theorem passed_imp_majority_iff (s : Store) (id : ℕ) :
    (outcome (s.countVotes id .support) s.committeeSize = .passed → s.Majority id) ↔
      ¬ s.Tipped id := by
  rw [outcome_eq_passed, countVotes_support, Store.Majority, Store.Tipped]
  omega

theorem legacy_find? (h : Step services w e w') (hlegacy : e.Legacy) {row : Proposal}
    (hrow : w.store.proposals.find? id = some row) : w'.store.proposals.find? id = some row := by
  subst h
  cases e with
  | createProposal type value caller days enrolledAt now =>
    rw [next, createProposal]
    split
    · exact hrow
    · dsimp only
      split
      · exact hrow
      · rename_i hsubmit
        obtain ⟨type, ends, rfl⟩ := submitProposal_eq_ok hsubmit
        exact find?_insertProposal hrow
  | castProposalVote proposalId caller vote enrolledAt now =>
    rw [next]
    unfold castProposalVote
    split_ifs
    · exact hrow
    · split
      · exact hrow
      · dsimp only
        split
        · exact hrow
        · rename_i hcast
          obtain ⟨_, _, -, -, -, -, -, -, rfl⟩ := castVote_eq_ok hcast
          split
          · exact hrow
          · exact hrow
  | listOpenProposals => exact hrow
  | _ => exact hlegacy.elim

theorem outcome_of_closesPassed (h : Step services w e w') (hcloses : ClosesPassed w w' id) :
    outcome (w.store.countVotes id .support) w.store.committeeSize = .passed := by
  obtain ⟨row, row', hrow, hactive, hrow', hpassed⟩ := hcloses
  have hsame (heq : w'.store.proposals.find? id = some row) : False := by
    obtain rfl := Option.some.inj (heq.symm.trans hrow')
    rw [hactive] at hpassed
    cases hpassed
  by_cases hlegacy : e.Legacy
  · exact (hsame (legacy_find? h hlegacy hrow)).elim
  · cases step_writes hlegacy h with
    | nothing hstore => exact (hsame (hstore ▸ hrow)).elim
    | proposal _ _ _ _ _ hstore => exact (hsame (hstore ▸ find?_insertProposal hrow)).elim
    | vote _ _ _ _ _ _ hstore => exact (hsame (by rw [hstore]; exact hrow)).elim
    | signoff _ _ _ _ _ _ _ hok hstore =>
      obtain ⟨_, _, -, -, -, -, -, -, rfl⟩ := recordSignoff_eq_ok hok
      exact (hsame (by rw [hstore]; exact hrow)).elim
    | closing hclosing =>
      rcases hclosing.proposals id with heq | ⟨row₀, -, -, hclosed⟩
      · exact (hsame (heq.trans hrow)).elim
      · obtain rfl := Option.some.inj (hclosed.symm.trans hrow')
        exact hpassed
    | execution id' effectAt now row₀ error hexec =>
      have hfind := hexec.proposals ▸ hrow'
      rw [find?_updateProposal] at hfind
      split_ifs at hfind with hid
      · obtain rfl := Option.some.inj (hexec.found.symm.trans (hid ▸ hrow))
        rw [hexec.passed] at hactive
        cases hactive
      · exact (hsame (by rw [hrow', ← hfind, hrow])).elim

instance : Std.Symm Member.Clash where
  symm _ _ h := ⟨h.2 ▸ h.1, h.2.symm⟩

theorem isCommitteeMember_iff :
    s.isCommitteeMember key = true ↔ s.memberStatus key = some true := by
  rw [Store.isCommitteeMember, Store.memberStatus, List.any_eq_true, Option.map_eq_some_iff]
  constructor
  · rintro ⟨m, hm, hactive⟩
    rw [Bool.and_eq_true, decide_eq_true_iff] at hactive
    cases hfind : s.committee.rows.find? fun m => decide (m.member = some key) with
    | none => exact absurd hactive.1 (by simpa using List.find?_eq_none.mp hfind m hm)
    | some m' =>
      have hkey : m'.member = some key := by simpa using List.find?_some hfind
      have hclash : Member.Clash m' m := ⟨hkey ▸ Option.some_ne_none key, hkey.trans hactive.1.symm⟩
      obtain rfl := UniqueTable.eq_of_clash (List.mem_of_find?_eq_some hfind) hm hclash
      exact ⟨m', rfl, hactive.2⟩
  · rintro ⟨m, hfind, hactive⟩
    refine ⟨m, List.mem_of_find?_eq_some hfind, ?_⟩
    have hkey : m.member = some key := by simpa using List.find?_some hfind
    rw [hactive, hkey, decide_eq_true rfl, Bool.and_true]

theorem applyCommitteeUpdate_active {row : Proposal} {now : Instant}
    (h : w.store.memberStatus key = some true) :
    (applyCommitteeUpdate w row now).1.store.memberStatus key = some true ∨
      row.payload.get? "action" = some (.text "remove") ∧ Names row key := by
  rw [applyCommitteeUpdate]
  split
  · exact .inl h
  · exact .inl h
  · rename_i action member haction hmember
    by_cases hadd : action = .text "add"
    · rw [if_pos hadd]
      split
      · exact .inl h
      · have hadded (cell : Option String) : ((w.store.enroll cell now).setActive cell
            true).memberStatus key = some true := by
          rw [memberStatus_setActive, memberStatus_enroll, h]
          simp
        exact .inl (hadded _)
    rw [if_neg hadd]
    by_cases hremove : action = .text "remove"
    · rw [if_pos hremove]
      split
      · exact .inl h
      · rename_i cell hcell
        by_cases hkey : cell = some key
        · exact .inr ⟨haction.trans (congrArg some hremove), member, hmember, hkey ▸ hcell⟩
        · exact .inl (by rw [memberStatus_setActive, if_neg hkey, h])
    · rw [if_neg hremove]
      exact .inl h

theorem applyEffect_active {row : Proposal} {now : Instant}
    (h : w.store.memberStatus key = some true) :
    (applyEffect services w row now).1.store.memberStatus key = some true ∨
      row.proposalType = .committeeUpdate ∧ row.payload.get? "action" = some (.text "remove") ∧
        Names row key := by
  rw [applyEffect]
  split
  · obtain ⟨config, heq⟩ := applyConfigChange_store services w row now
    exact .inl ((memberStatus_congr (by rw [heq]) key).trans h)
  · rename_i htype
    exact (applyCommitteeUpdate_active h).imp id fun hremoved => ⟨htype, hremoved⟩
  · exact .inl ((memberStatus_congr (by rw [applyModelPromotion_store]) key).trans h)

theorem step_active (h : Step services w e w') (hactive : w.store.memberStatus key = some true) :
    w'.store.memberStatus key = some true ∨ Removes w e key := by
  have hkept (heq : w'.store.memberStatus key = w.store.memberStatus key) :
      w'.store.memberStatus key = some true := heq.trans hactive
  by_cases hlegacy : e.Legacy
  · have henrolled (caller : String) (at' : Instant) :
        (w.store.enroll (some caller) at').memberStatus key = some true := by
      rw [memberStatus_enroll, hactive]
      simp
    subst h
    cases e with
    | createProposal type value caller days enrolledAt now =>
      rcases createProposal_memberStatus w.store type value caller days enrolledAt now key with
        hsame | henroll
      · exact .inl (hkept hsame)
      · exact .inl (henroll.trans (henrolled _ _))
    | castProposalVote id caller vote enrolledAt now =>
      rcases castProposalVote_memberStatus w.store id caller vote enrolledAt now key with
        hsame | henroll
      · exact .inl (hkept hsame)
      · exact .inl (henroll.trans (henrolled _ _))
    | listOpenProposals => exact .inl hactive
    | _ => exact hlegacy.elim
  · cases step_writes hlegacy h with
    | nothing hstore => exact .inl (hkept (memberStatus_congr (by rw [hstore]) key))
    | proposal _ _ _ _ _ hstore => exact .inl (hkept (memberStatus_congr (by rw [hstore]; rfl) key))
    | vote _ _ _ _ _ _ hstore => exact .inl (hkept (memberStatus_congr (by rw [hstore]) key))
    | signoff _ _ _ _ _ _ _ hok hstore =>
      obtain ⟨_, _, -, -, -, -, -, -, rfl⟩ := recordSignoff_eq_ok hok
      exact .inl (hkept (memberStatus_congr (by rw [hstore]) key))
    | closing hclosing => exact .inl (hkept (memberStatus_congr hclosing.committee key))
    | execution id' effectAt now row error hexec =>
      rw [memberStatus_congr hexec.committee key]
      exact (applyEffect_active hactive).imp id fun ⟨htype, haction, hnames⟩ =>
        ⟨id', effectAt, now, row, rfl, hexec.found, hexec.passed, htype, haction, hnames⟩

theorem castVote_votes {s s' : Store} {voter decision : String} {now : Instant} {v u : Vote}
    (h : castVote s id voter decision now = .ok (v, s')) (hu : u ∈ s'.votes.rows) :
    u ∈ s.votes.rows ∨ s'.isCommitteeMember u.voter = true := by
  obtain ⟨_, votes, -, -, hmember, -, hvoter, hrows, rfl⟩ := castVote_eq_ok h
  rcases List.mem_append.mp (hrows ▸ hu) with hold | hnew
  · exact .inl hold
  · rw [List.mem_singleton.mp hnew, hvoter]
    exact .inr hmember

theorem step_votes (h : Step services w e w') {v : Vote} (hv : v ∈ w'.store.votes.rows) :
    v ∈ w.store.votes.rows ∨ w'.store.isCommitteeMember v.voter = true := by
  subst h
  cases e with
  | submitProposal proposer type payload now =>
    rcases commit_cases w
      (submitProposal w.store VOTING_PERIOD_HOURS proposer type payload now) with
      heq | ⟨p, s, hok, heq⟩
    · exact .inl (by rwa [next, heq] at hv)
    · obtain ⟨type, ends, rfl⟩ := submitProposal_eq_ok hok
      exact .inl (by rwa [next, heq] at hv)
  | castVote id voter decision now =>
    rw [next] at hv ⊢
    rcases commit_cases w (castVote w.store id voter decision now) with heq | ⟨v, s, hok, heq⟩
    · exact .inl (by rwa [heq] at hv)
    · rw [heq] at hv ⊢
      exact castVote_votes hok hv
  | recordSignoff id signer role evidence now =>
    rcases commit_cases w (recordSignoff w.store id signer role evidence now) with
      heq | ⟨so, s, hok, heq⟩
    · exact .inl (by rwa [next, heq] at hv)
    · obtain ⟨_, _, -, -, -, -, -, -, rfl⟩ := recordSignoff_eq_ok hok
      exact .inl (by rwa [next, heq] at hv)
  | closeProposal id =>
    rcases commit_cases w (closeProposal w.store id) with heq | ⟨p, s, hok, heq⟩
    · exact .inl (by rwa [next, heq] at hv)
    · rw [next, heq] at hv
      exact .inl ((closeProposal_closing hok).votes ▸ hv)
  | executeProposal id effectAt now =>
    rw [next] at hv
    rcases executeProposal_cases services w id effectAt now with
      heq | ⟨-, -, heq⟩ | ⟨row, error, hexec⟩
    · exact .inl (heq ▸ hv)
    · exact .inl (heq ▸ hv)
    · exact .inl (hexec.votes ▸ hv)
  | closeExpired now => exact .inl ((closeEach_closing w.store _).votes ▸ hv)
  | createProposal type value caller days enrolledAt now =>
    rw [next, createProposal] at hv
    split at hv
    · exact .inl hv
    · dsimp only at hv
      split at hv
      · exact .inl hv
      · rename_i hsubmit
        obtain ⟨type, ends, rfl⟩ := submitProposal_eq_ok hsubmit
        exact .inl hv
  | castProposalVote proposalId caller vote enrolledAt now =>
    rw [next] at hv ⊢
    unfold castProposalVote at hv ⊢
    split_ifs at hv ⊢
    · exact .inl hv
    · cases proposalId with
      | none => exact .inl hv
      | some id =>
        dsimp only at hv ⊢
        cases hcast : castVote (w.store.enroll (some caller) enrolledAt) id caller vote now with
        | error err => exact .inl (by rwa [hcast] at hv)
        | ok result =>
          obtain ⟨u, s'⟩ := result
          simp only [hcast] at hv ⊢
          have hadded (hv : v ∈ s'.votes.rows) := castVote_votes hcast hv
          cases hfind : s'.proposals.find? id <;>
            · simp only [hfind] at hv
              exact hadded hv
  | _ => exact .inl hv

def VotersActive (s : Store) (id : ℕ) : Prop := ∀ v ∈ s.votes.rows, v.proposalId = id →
  v.decision = .support → s.isCommitteeMember v.voter = true

theorem VotersActive.step (h : VotersActive w.store id) (hstep : KeepsVoters services id w e w') :
    VotersActive w'.store id := by
  intro v hv hid hfor
  rcases step_votes hstep.1 hv with hold | hactive
  · have hmember := isCommitteeMember_iff.mp (h v hold hid hfor)
    have hkept := (step_active hstep.1 hmember).resolve_right (hstep.2 v hold hid hfor)
    exact isCommitteeMember_iff.mpr hkept
  · exact hactive

theorem VotersActive.not_tipped (h : VotersActive s id) : ¬ s.Tipped id := by
  have hnone : s.formerFor id = 0 := by
    refine List.countP_eq_zero.mpr fun v hv hformer => ?_
    simp only [Bool.and_eq_true, decide_eq_true_iff, Bool.not_eq_true'] at hformer
    rw [h v hv hformer.1.1 hformer.1.2] at hformer
    cases hformer.2
  rintro ⟨hfew, htipped⟩
  omega

/-- A tally says passed only with a majority of the active members, and a proposal is closed as
passed only with one, exactly where the votes of former members do not make the difference. They
never do in a run in which nobody who has voted for the proposal is removed. -/
theorem passed_by_majority_iff (services : Services Outside) :
    (∀ (s : Store) id tally, tallyProposal s id = .ok tally →
      ((tally.outcome = .passed → s.Majority id) ↔ ¬ s.Tipped id)) ∧
    (∀ (w : World Outside) e w' id, Step services w e w' → ClosesPassed w w' id →
      (w.store.Majority id ↔ ¬ w.store.Tipped id)) ∧
    ∀ committee runtimeConfig outside es w id,
      Run (KeepsVoters services id) (initial committee runtimeConfig outside) es w →
        ¬ w.store.Tipped id := by
  refine ⟨fun s id tally htally => ?_, fun w e w' id hstep hcloses => ?_,
    fun committee runtimeConfig outside es w id hrun => ?_⟩
  · cases hfind : s.proposals.find? id with
    | none =>
      rw [tallyProposal, hfind] at htally
      cases htally
    | some row =>
      obtain ⟨tally', htally', houtcome⟩ := tallyProposal_eq_ok hfind
      obtain rfl := Except.ok.inj (htally.symm.trans htally')
      rw [houtcome]
      exact passed_imp_majority_iff s id
  · rw [← passed_imp_majority_iff]
    exact ⟨fun h _ => h, fun h => h (outcome_of_closesPassed hstep hcloses)⟩
  · have hvoters : VotersActive w.store id := by
      refine hrun.invariant (I := fun w => VotersActive w.store id) ?_ ?_
      · exact fun _ _ _ h hstep => VotersActive.step h hstep
      · exact fun v hv => absurd hv List.not_mem_nil
    exact hvoters.not_tipped

theorem run_keepsVoters {services : Services Outside} {id : ℕ} {s t : World Outside}
    {es : List (Event Outside)} (hrun : Run (Step services) s es t)
    (hnone : ∀ e ∈ es, ∀ id' effectAt now, e ≠ .executeProposal id' effectAt now) :
    Run (KeepsVoters services id) s es t := by
  induction hrun with
  | refl => exact .refl _
  | tail _ hstep ih =>
    refine (ih fun e he => hnone e (List.mem_append_left _ he)).tail ⟨hstep, ?_⟩
    rintro v _ _ _ ⟨id', effectAt, now, _, he, -⟩
    exact hnone _ (List.mem_append_right _ (List.mem_singleton_self _)) id' effectAt now he

/-- Two of three members vote for a change and to remove the third. -/
def votersStay : List (Event Unit) :=
  [.submitProposal "ana" "config_change"
    [("key", .text "RISK_SCORE_THRESHOLD"), ("new_value", .int 75)] 0,
  .castVote 1 "ana" "for" 10,
  .castVote 1 "ben" "for" 20,
  .submitProposal "ana" "committee_update" [("action", .text "remove"), ("member", .text "eva")] 30,
  .castVote 2 "ana" "for" 40,
  .castVote 2 "ben" "for" 50,
  .closeProposal 2]

def beforeRemoval : World Unit :=
  votersStay.foldl (next quietServices) (initial threeMembers (some []) ())

theorem removes_eva : (beforeRemoval.store.proposals.find? 2).map
    (fun row => row.payload.get? "member") = some (some (.text "eva")) := by
  decide +kernel

theorem run_votersStay : Run (KeepsVoters quietServices 1) (initial threeMembers (some []) ())
    (votersStay ++ [.executeProposal 2 60 70])
    (next quietServices beforeRemoval (.executeProposal 2 60 70)) := by
  have hquiet : ∀ e ∈ votersStay, ∀ id' effectAt now, e ≠ .executeProposal id' effectAt now := by
    simp [votersStay]
  refine (run_keepsVoters (run_foldl _ _ _) hquiet).tail ⟨rfl, ?_⟩
  rintro v hv hid - ⟨_, _, _, row, ⟨⟩, hfind, -, -, -, hnames⟩
  have hothers : ∀ v ∈ beforeRemoval.store.votes.rows, v.proposalId = 1 → v.voter ≠ "eva" := by
    decide +kernel
  have heva : row.payload.get? "member" = some (.text "eva") := by
    have hmember := removes_eva
    rw [beforeRemoval, hfind] at hmember
    exact Option.some.inj hmember
  obtain ⟨_, hvalue, hname⟩ := hnames
  obtain rfl := Option.some.inj (heva.symm.trans hvalue)
  exact hothers v hv hid (Option.some.inj (Option.some.inj hname)).symm

theorem passed_by_majority_iff_stay :
    ¬ (next quietServices beforeRemoval (.executeProposal 2 60 70)).store.Tipped 1 :=
  (passed_by_majority_iff quietServices).2.2 _ _ _ _ _ 1 run_votersStay

/-- Two of three members vote for a change, and one of them is removed by the other two. -/
def removedVoter : List (Event Unit) :=
  [.submitProposal "ana" "config_change"
    [("key", .text "RISK_SCORE_THRESHOLD"), ("new_value", .int 75)] 0,
  .castVote 1 "ana" "for" 10,
  .castVote 1 "ben" "for" 20,
  .submitProposal "ana" "committee_update" [("action", .text "remove"), ("member", .text "ben")] 30,
  .castVote 2 "ana" "for" 40,
  .castVote 2 "eva" "for" 50,
  .closeProposal 2,
  .executeProposal 2 60 70]

/-- One of the two members left has voted for the change, and its tally says passed. -/
theorem removed_voter_counts : ∃ w tally,
    Run (Step quietServices) (initial threeMembers (some []) ()) removedVoter w ∧
      tallyProposal w.store 1 = .ok tally ∧ tally.outcome = .passed ∧ ¬ w.store.Majority 1 := by
  refine ⟨_, ⟨1, 2, 0, 0, 2, 2, true, .passed⟩, run_foldl _ _ _, ?_, rfl, ?_⟩
  · decide +kernel
  · rw [Store.Majority]
    decide +kernel

end Governance
