import LedgerLens.GovernanceRuns

/-!
# Who changes the committee

The active status of a member changes by executing a passed committee update, and by the two
legacy functions, which enroll a caller that the committee does not know.
-/
namespace Governance

open LabelledRuns SqlTables

variable {Outside : Type}

/-- The `active` column of a member, if the committee has a row for it. -/
def Store.memberStatus (s : Store) (key : String) : Option Bool :=
  (s.committee.rows.find? fun m => decide (m.member = some key)).map Member.active

theorem memberStatus_eq_none {s : Store} {key : String} :
    s.memberStatus key = none ↔ ∀ m ∈ s.committee.rows, m.member ≠ some key := by
  simp [Store.memberStatus]

theorem memberStatus_setActive (s : Store) (member : Option String) (active : Bool)
    (key : String) : (s.setActive member active).memberStatus key =
      if member = some key then (s.memberStatus key).map fun _ => active
      else s.memberStatus key := by
  unfold Store.memberStatus Store.setActive
  rw [UniqueTable.rows_update, List.find?_map, Option.map_map]
  have hsame (m : Member) : (if member ≠ none ∧ m.member = member then
      { m with active := active } else m).member = m.member := by
    split_ifs <;> rfl
  have hfind : ((fun m : Member => decide (m.member = some key)) ∘ fun m =>
      if member ≠ none ∧ m.member = member then { m with active := active } else m) =
        fun m => decide (m.member = some key) := by
    funext m
    rw [Function.comp_apply, hsame]
  rw [hfind]
  cases hm : s.committee.rows.find? fun m => decide (m.member = some key) with
  | none => simp
  | some m =>
    have hkey : m.member = some key := by simpa using List.find?_some hm
    by_cases hmember : member = some key
    · simp [hmember, hkey]
    · have hother : ¬ (member ≠ none ∧ some key = member) := fun h => hmember h.2.symm
      simp [hmember, hkey, hother]

theorem memberStatus_enroll (s : Store) (member : Option String) (now : Instant) (key : String) :
    (s.enroll member now).memberStatus key =
      if member = some key ∧ s.memberStatus key = none then some true
      else s.memberStatus key := by
  unfold Store.enroll UniqueTable.insertOrIgnore
  cases hinsert : s.committee.insert? ⟨member, now, true⟩ with
  | none =>
    obtain ⟨m, hm, hclash⟩ := UniqueTable.insert?_eq_none.mp hinsert
    rw [if_neg]
    · rfl
    · rintro ⟨rfl, hnone⟩
      exact memberStatus_eq_none.mp hnone m hm hclash.2
  | some committee =>
    obtain ⟨-, hrows⟩ := UniqueTable.insert?_eq_some hinsert
    unfold Store.memberStatus
    rw [Option.getD_some, hrows, List.find?_append]
    cases hm : s.committee.rows.find? fun m => decide (m.member = some key) with
    | none => by_cases hmember : member = some key <;> simp [hmember]
    | some m => simp

theorem memberStatus_congr {s s' : Store} (h : s'.committee = s.committee) (key : String) :
    s'.memberStatus key = s.memberStatus key := by
  unfold Store.memberStatus
  rw [h]

/-- The payload of a committee update names this member. -/
def Names (row : Proposal) (key : String) : Prop :=
  ∃ v, row.payload.get? "member" = some v ∧ v.bindText = some (some key)

theorem applyCommitteeUpdate_memberStatus {w : World Outside} {row : Proposal} {now : Instant}
    {key : String}
    (h : (applyCommitteeUpdate w row now).1.store.memberStatus key ≠ w.store.memberStatus key) :
    Names row key := by
  unfold applyCommitteeUpdate at h
  split at h
  · exact absurd rfl h
  · exact absurd rfl h
  · rename_i action member _ hmember
    by_cases hadd : action = .text "add"
    · rw [if_pos hadd] at h
      split at h
      · exact absurd rfl h
      · rename_i cell hcell
        rw [memberStatus_setActive, memberStatus_enroll] at h
        by_cases hkey : cell = some key
        · exact ⟨member, hmember, hkey ▸ hcell⟩
        · rw [if_neg hkey, if_neg fun hc => hkey hc.1] at h
          exact absurd rfl h
    rw [if_neg hadd] at h
    by_cases hremove : action = .text "remove"
    · rw [if_pos hremove] at h
      split at h
      · exact absurd rfl h
      · rename_i cell hcell
        rw [memberStatus_setActive] at h
        by_cases hkey : cell = some key
        · exact ⟨member, hmember, hkey ▸ hcell⟩
        · rw [if_neg hkey] at h
          exact absurd rfl h
    · rw [if_neg hremove] at h
      exact absurd rfl h

theorem applyEffect_memberStatus {services : Services Outside} {w : World Outside} {row : Proposal}
    {now : Instant} {key : String}
    (h : (applyEffect services w row now).1.store.memberStatus key ≠ w.store.memberStatus key) :
    row.proposalType = .committeeUpdate ∧ Names row key := by
  unfold applyEffect at h
  split at h
  · obtain ⟨config, heq⟩ := applyConfigChange_store services w row now
    exact absurd (memberStatus_congr (by rw [heq]) key) h
  · exact ⟨‹_›, applyCommitteeUpdate_memberStatus h⟩
  · exact absurd (memberStatus_congr (by rw [applyModelPromotion_store]) key) h

def ExecutesCommitteeUpdate (w : World Outside) (e : Event Outside) (key : String) : Prop :=
  ∃ id effectAt now row, e = .executeProposal id effectAt now ∧
    w.store.proposals.find? id = some row ∧ row.status = .passed ∧
    row.proposalType = .committeeUpdate ∧ Names row key

def Event.legacyCaller : Event Outside → Option String
  | .createProposal _ _ proposedByKeyHash _ _ _ => some proposedByKeyHash
  | .castProposalVote _ voterKeyHash _ _ _ => some voterKeyHash
  | _ => none

/-- The caller of a legacy function becomes an active member where it had no row. -/
def Enrolls (s s' : Store) (e : Event Outside) (key : String) : Prop :=
  e.legacyCaller = some key ∧ s.memberStatus key = none ∧ s'.memberStatus key = some true

theorem writes_memberStatus {services : Services Outside} {w w' : World Outside}
    {e : Event Outside} {key : String} (h : Writes services w e w')
    (hchange : w'.store.memberStatus key ≠ w.store.memberStatus key) :
    ExecutesCommitteeUpdate w e key := by
  cases h with
  | nothing hstore => exact absurd (memberStatus_congr (by rw [hstore]) key) hchange
  | proposal _ _ _ _ _ hstore => exact absurd (memberStatus_congr (by rw [hstore]; rfl) key) hchange
  | vote _ _ _ _ _ _ hstore => exact absurd (memberStatus_congr (by rw [hstore]) key) hchange
  | signoff _ _ _ _ _ _ _ hok hstore =>
    obtain ⟨_, _, -, -, -, -, -, -, rfl⟩ := recordSignoff_eq_ok hok
    exact absurd (memberStatus_congr (by rw [hstore]) key) hchange
  | closing hclosing => exact absurd (memberStatus_congr hclosing.committee key) hchange
  | execution id effectAt now row _ hexec =>
    rw [memberStatus_congr hexec.committee key] at hchange
    obtain ⟨htype, hnames⟩ := applyEffect_memberStatus hchange
    exact ⟨id, effectAt, now, row, rfl, hexec.found, hexec.passed, htype, hnames⟩

theorem enroll_memberStatus {s : Store} {caller key : String} {now : Instant}
    (h : (s.enroll (some caller) now).memberStatus key ≠ s.memberStatus key) :
    caller = key ∧ s.memberStatus key = none ∧
      (s.enroll (some caller) now).memberStatus key = some true := by
  rw [memberStatus_enroll] at h ⊢
  by_cases hnew : some caller = some key ∧ s.memberStatus key = none
  · exact ⟨Option.some.inj hnew.1, hnew.2, if_pos hnew⟩
  · rw [if_neg hnew] at h
    exact absurd rfl h

theorem createProposal_memberStatus (s : Store) (proposalType proposedValue caller : String)
    (daysValid : ℤ) (enrolledAt now : Instant) (key : String) :
    (createProposal s proposalType proposedValue caller daysValid enrolledAt now).2.memberStatus
        key = s.memberStatus key ∨
      (createProposal s proposalType proposedValue caller daysValid enrolledAt now).2.memberStatus
        key = (s.enroll (some caller) enrolledAt).memberStatus key := by
  unfold createProposal
  split
  · exact .inl rfl
  · dsimp only
    split
    · exact .inr rfl
    · rename_i hsubmit
      obtain ⟨type, ends, rfl⟩ := submitProposal_eq_ok hsubmit
      exact .inr rfl

theorem castProposalVote_memberStatus (s : Store) (id : Option ℕ) (caller vote : String)
    (enrolledAt now : Instant) (key : String) :
    (castProposalVote s id caller vote enrolledAt now).2.memberStatus key = s.memberStatus key ∨
      (castProposalVote s id caller vote enrolledAt now).2.memberStatus key =
        (s.enroll (some caller) enrolledAt).memberStatus key := by
  unfold castProposalVote
  by_cases hvote : vote ≠ "for" ∧ vote ≠ "against"
  · rw [if_pos hvote]
    exact .inl rfl
  rw [if_neg hvote]
  split
  · exact .inl rfl
  · dsimp only
    split
    · exact .inr rfl
    · rename_i hcast
      obtain ⟨_, _, -, -, -, -, -, -, rfl⟩ := castVote_eq_ok hcast
      split
      · exact .inr rfl
      · exact .inr rfl

/-- The active status of a member changes only by executing a passed committee update that names
it, and by the two legacy functions, which enroll a caller that has no row. -/
theorem member_status_change {services : Services Outside} {w w' : World Outside}
    {e : Event Outside} {key : String} (h : Step services w e w')
    (hchange : w'.store.memberStatus key ≠ w.store.memberStatus key) :
    ExecutesCommitteeUpdate w e key ∨ Enrolls w.store w'.store e key := by
  by_cases hlegacy : e.Legacy
  · subst h
    cases e with
    | createProposal type value caller days enrolledAt now =>
      rcases createProposal_memberStatus w.store type value caller days enrolledAt now key with
        hsame | henroll
      · exact absurd hsame hchange
      · rw [next, henroll] at hchange
        obtain ⟨rfl, hnone, hactive⟩ := enroll_memberStatus hchange
        exact .inr ⟨rfl, hnone, henroll.trans hactive⟩
    | castProposalVote id caller vote enrolledAt now =>
      rcases castProposalVote_memberStatus w.store id caller vote enrolledAt now key with
        hsame | henroll
      · exact absurd hsame hchange
      · rw [next, henroll] at hchange
        obtain ⟨rfl, hnone, hactive⟩ := enroll_memberStatus hchange
        exact .inr ⟨rfl, hnone, henroll.trans hactive⟩
    | listOpenProposals => exact absurd rfl hchange
    | _ => exact hlegacy.elim
  · exact .inl (writes_memberStatus (step_writes hlegacy h) hchange)

/-- A key that the committee does not know votes through the legacy function. -/
def outsiderVotes : Event Unit := .castProposalVote (some 1) "mallory" "for" 10 20

theorem outsiderVotes_enrolls :
    (next quietServices (initial threeMembers none ()) outsiderVotes).store.memberStatus "mallory" ≠
      (initial threeMembers none ()).store.memberStatus "mallory" := by
  decide +kernel

theorem member_status_change_outsider :
    ExecutesCommitteeUpdate (initial threeMembers none ()) outsiderVotes "mallory" ∨
      Enrolls (initial threeMembers none ()).store
        (next quietServices (initial threeMembers none ()) outsiderVotes).store outsiderVotes
        "mallory" :=
  member_status_change rfl outsiderVotes_enrolls

theorem legacy_vote_enrolls_outsider :
    ¬ ∀ (es : List (Event Unit)) (w w' : World Unit) (e : Event Unit) (key : String),
      Run (Step quietServices) (initial threeMembers none ()) es w → Step quietServices w e w' →
        w'.store.memberStatus key ≠ w.store.memberStatus key → ExecutesCommitteeUpdate w e key := by
  intro h
  obtain ⟨id, effectAt, now, row, heq, -⟩ := h [] _ _ outsiderVotes "mallory" (.refl _) rfl
    outsiderVotes_enrolls
  cases heq

end Governance
