import Mathlib.Data.Finset.Insert
import Mathlib.Data.List.Perm.Subperm
import Mathlib.Data.Set.Finite.Basic

/-!
# Matching labels

Labels are renamed among themselves: pairs of an old and a new name are claimed in order, as long as
neither is taken, and the labels left over get the names left over. Every label gets a name, and no
two the same one.
-/
namespace LabelMatching

variable {α : Type*} [DecidableEq α]

/-- The names given so far, and which are in use. -/
structure Matching (α : Type*) where
  relabel : α → Option α
  used : Finset α

def Matching.empty : Matching α := ⟨fun _ => none, ∅⟩

def Matching.claim (m : Matching α) (pair : α × α) : Matching α :=
  if m.relabel pair.1 = none ∧ pair.2 ∉ m.used then
    ⟨Function.update m.relabel pair.1 (some pair.2), insert pair.2 m.used⟩
  else m

def claimAll (pairs : List (α × α)) : Matching α := pairs.foldl Matching.claim .empty

/-- Each label without a name takes the next free one. -/
def fill : List α → List α → (α → Option α) → Option (α → Option α)
  | [], _, relabel => some relabel
  | a :: labels, free, relabel =>
    if relabel a = none then
      match free with
      | [] => none
      | b :: free => fill labels free (Function.update relabel a (some b))
    else fill labels free relabel

def relabelling (labels : List α) (pairs : List (α × α)) : Option (α → Option α) :=
  let m := claimAll pairs
  fill labels (labels.filter (· ∉ m.used)) m.relabel

def Injective (relabel : α → Option α) : Prop :=
  ∀ a a' b, relabel a = some b → relabel a' = some b → a = a'

/-- The names in use are those given, to distinct labels. -/
structure Matching.Valid (labels : List α) (m : Matching α) : Prop where
  mem_used : ∀ b, b ∈ m.used ↔ ∃ a, m.relabel a = some b
  labels : ∀ a b, m.relabel a = some b → a ∈ labels ∧ b ∈ labels
  injective : Injective m.relabel

section

variable {labels free : List α} {pairs : List (α × α)} {pair : α × α} {m : Matching α}
  {relabel relabel' : α → Option α} {a a' b : α}

theorem injective_update (h : Injective relabel) (hfree : ∀ a, relabel a ≠ some b) :
    Injective (Function.update relabel a (some b)) := by
  intro x x' y hx hx'
  rw [Function.update_apply] at hx hx'
  split_ifs at hx hx' with heq heq'
  · rw [heq, heq']
  · obtain rfl := Option.some.inj hx
    exact absurd hx' (hfree x')
  · obtain rfl := Option.some.inj hx'
    exact absurd hx (hfree x)
  · exact h x x' y hx hx'

theorem relabel_claim (m : Matching α) (pair : α × α) (a : α) : (m.claim pair).relabel a =
    if (m.relabel pair.1 = none ∧ pair.2 ∉ m.used) ∧ a = pair.1 then some pair.2
    else m.relabel a := by
  rw [Matching.claim]
  split_ifs with hclaim hboth hboth
  · rw [hboth.2]
    exact Function.update_self _ _ _
  · exact Function.update_of_ne (fun heq => hboth ⟨hclaim, heq⟩) _ _
  · exact absurd hboth.1 hclaim
  · rfl

theorem mem_used_claim (m : Matching α) (pair : α × α) (b : α) : b ∈ (m.claim pair).used ↔
    (m.relabel pair.1 = none ∧ pair.2 ∉ m.used) ∧ b = pair.2 ∨ b ∈ m.used := by
  rw [Matching.claim]
  split_ifs with hclaim
  · rw [and_iff_right hclaim]
    exact Finset.mem_insert
  · exact (or_iff_right fun h => hclaim h.1).symm

omit [DecidableEq α] in
theorem Matching.Valid.empty : Matching.Valid labels (.empty : Matching α) where
  mem_used b := by simp [Matching.empty]
  labels a b h := nomatch h
  injective a a' b h := nomatch h

theorem Matching.Valid.claim (h : m.Valid labels) (hfirst : pair.1 ∈ labels)
    (hsecond : pair.2 ∈ labels) : (m.claim pair).Valid labels := by
  by_cases hclaim : m.relabel pair.1 = none ∧ pair.2 ∉ m.used
  · have hfree : ∀ a, m.relabel a ≠ some pair.2 := fun a ha =>
      hclaim.2 ((h.mem_used pair.2).mpr ⟨a, ha⟩)
    have hrelabel (a : α) :
        (m.claim pair).relabel a = if a = pair.1 then some pair.2 else m.relabel a := by
      simp only [relabel_claim, and_iff_right hclaim]
    refine ⟨fun b => ?_, fun a b hab => ?_, ?_⟩
    · rw [mem_used_claim, and_iff_right hclaim, h.mem_used]
      constructor
      · rintro (rfl | ⟨a, ha⟩)
        · exact ⟨pair.1, by rw [hrelabel, if_pos rfl]⟩
        · have hne : a ≠ pair.1 := fun heq => by
            rw [heq, hclaim.1] at ha
            cases ha
          exact ⟨a, by rw [hrelabel, if_neg hne, ha]⟩
      · rintro ⟨a, ha⟩
        rw [hrelabel] at ha
        split_ifs at ha
        · exact .inl (Option.some.inj ha).symm
        · exact .inr ⟨a, ha⟩
    · rw [hrelabel] at hab
      split_ifs at hab with heq
      · obtain rfl := Option.some.inj hab
        exact ⟨heq ▸ hfirst, hsecond⟩
      · exact h.labels a b hab
    · rw [Matching.claim, if_pos hclaim]
      exact injective_update h.injective hfree
  · rw [Matching.claim, if_neg hclaim]
    exact h

theorem valid_foldl (h : m.Valid labels) (hpairs : ∀ p ∈ pairs, p.1 ∈ labels ∧ p.2 ∈ labels) :
    (pairs.foldl Matching.claim m).Valid labels := by
  induction pairs generalizing m with
  | nil => exact h
  | cons p pairs ih =>
    obtain ⟨hp, hpairs⟩ := List.forall_mem_cons.mp hpairs
    exact ih (h.claim hp.1 hp.2) hpairs

theorem claimAll_valid (hpairs : ∀ p ∈ pairs, p.1 ∈ labels ∧ p.2 ∈ labels) :
    (claimAll pairs).Valid labels := valid_foldl .empty hpairs

/-- What the loop over the labels left over gives. -/
structure Filled (labels free : List α) (relabel relabel' : α → Option α) : Prop where
  injective : Injective relabel'
  keeps : ∀ a b, relabel a = some b → relabel' a = some b
  total : ∀ a ∈ labels, relabel' a ≠ none
  given : ∀ a b, relabel' a = some b → relabel a = some b ∨ a ∈ labels ∧ b ∈ free

theorem Filled.of_given (hnone : relabel a = none)
    (h : Filled labels free (Function.update relabel a (some b)) relabel') :
    Filled (a :: labels) (b :: free) relabel relabel' where
  injective := h.injective
  keeps x y hxy := by
    refine h.keeps x y ?_
    have hne : x ≠ a := fun heq => by
      rw [heq, hnone] at hxy
      cases hxy
    exact (Function.update_of_ne hne _ _).trans hxy
  total := by
    refine List.forall_mem_cons.mpr ⟨?_, h.total⟩
    rw [h.keeps a b (Function.update_self _ _ _)]
    exact Option.some_ne_none b
  given x y hxy := by
    rcases h.given x y hxy with hxy | ⟨hx, hy⟩
    · rw [Function.update_apply] at hxy
      split_ifs at hxy with heq
      · obtain rfl := Option.some.inj hxy
        exact .inr ⟨heq ▸ List.mem_cons_self, List.mem_cons_self⟩
      · exact .inl hxy
    · exact .inr ⟨List.mem_cons_of_mem _ hx, List.mem_cons_of_mem _ hy⟩

omit [DecidableEq α] in
theorem Filled.of_named (hb : relabel a = some b) (h : Filled labels free relabel relabel') :
    Filled (a :: labels) free relabel relabel' where
  injective := h.injective
  keeps := h.keeps
  total := by
    refine List.forall_mem_cons.mpr ⟨?_, h.total⟩
    rw [h.keeps a b hb]
    exact Option.some_ne_none b
  given x y hxy := (h.given x y hxy).imp_right fun hgiven =>
    ⟨List.mem_cons_of_mem _ hgiven.1, hgiven.2⟩

theorem exists_fill (hlabels : labels.Nodup) (hfree : free.Nodup) (hinj : Injective relabel)
    (hunused : ∀ b ∈ free, ∀ a, relabel a ≠ some b)
    (henough : (labels.filter fun a => relabel a = none).length ≤ free.length) :
    ∃ relabel', fill labels free relabel = some relabel' ∧ Filled labels free relabel relabel' := by
  induction labels generalizing free relabel with
  | nil =>
    exact ⟨relabel, rfl, hinj, fun _ _ h => h, fun a ha => absurd ha List.not_mem_nil,
      fun _ _ h => .inl h⟩
  | cons a labels ih =>
    obtain ⟨hnot, hlabels⟩ := List.nodup_cons.mp hlabels
    by_cases hnone : relabel a = none
    · rw [List.filter_cons, if_pos (by rw [hnone]; rfl), List.length_cons] at henough
      cases free with
      | nil => exact absurd henough (Nat.not_succ_le_zero _)
      | cons b free =>
        obtain ⟨hb, hfree⟩ := List.nodup_cons.mp hfree
        obtain ⟨hbunused, hunused⟩ := List.forall_mem_cons.mp hunused
        rw [List.length_cons, Nat.succ_le_succ_iff] at henough
        have hother {x : α} (hx : x ∈ labels) : x ≠ a := fun heq => hnot (heq ▸ hx)
        have hsame : (labels.filter fun x => Function.update relabel a (some b) x = none) =
            labels.filter fun x => relabel x = none := by
          refine List.filter_congr fun x hx => ?_
          rw [Function.update_of_ne (hother hx)]
        have hunused' : ∀ b' ∈ free, ∀ x, Function.update relabel a (some b) x ≠ some b' := by
          intro b' hb' x hx
          rw [Function.update_apply] at hx
          split_ifs at hx
          · exact hb ((Option.some.inj hx) ▸ hb')
          · exact hunused b' hb' x hx
        obtain ⟨relabel', hfill, hfilled⟩ := ih hlabels hfree (injective_update hinj hbunused)
          hunused' (hsame ▸ henough)
        refine ⟨relabel', ?_, hfilled.of_given hnone⟩
        unfold fill
        rw [if_pos hnone]
        exact hfill
    · rw [List.filter_cons_of_neg (by simpa using hnone)] at henough
      obtain ⟨relabel', hfill, hfilled⟩ := ih hlabels hfree hinj hunused henough
      obtain ⟨b, hb⟩ := Option.ne_none_iff_exists'.mp hnone
      refine ⟨relabel', ?_, hfilled.of_named hb⟩
      unfold fill
      rw [if_neg hnone]
      exact hfill

theorem Matching.Valid.enough (h : m.Valid labels) (hlabels : labels.Nodup) :
    (labels.filter fun a => m.relabel a = none).length ≤
      (labels.filter (· ∉ m.used)).length := by
  have hused : (labels.filter fun b => decide (b ∈ m.used)).length ≤
      (labels.filter fun a => !decide (m.relabel a = none)).length := by
    have hsub : (labels.filter fun b => decide (b ∈ m.used)) ⊆
        (labels.filter fun a => !decide (m.relabel a = none)).filterMap m.relabel := by
      intro b hb
      obtain ⟨a, ha⟩ := (h.mem_used b).mp (of_decide_eq_true (List.mem_filter.mp hb).2)
      refine List.mem_filterMap.mpr ⟨a, List.mem_filter.mpr ⟨(h.labels a b ha).1, ?_⟩, ha⟩
      simp [ha]
    exact (List.subperm_of_subset (hlabels.filter _) hsub).length_le.trans
      (List.length_filterMap_le _ _)
  have hnone := List.length_eq_length_filter_add (l := labels) fun a => decide (m.relabel a = none)
  have hin := List.length_eq_length_filter_add (l := labels) fun b => decide (b ∈ m.used)
  simp only [decide_not]
  omega

/-- Every label gets a name of the labels, and no two the same; a claimed name is kept. -/
theorem exists_relabelling (hlabels : labels.Nodup)
    (hpairs : ∀ p ∈ pairs, p.1 ∈ labels ∧ p.2 ∈ labels) :
    ∃ relabel, relabelling labels pairs = some relabel ∧
      (∃ σ : α → α, Set.BijOn σ {a | a ∈ labels} {a | a ∈ labels} ∧
        ∀ a ∈ labels, relabel a = some (σ a)) ∧
      ∀ a b, (claimAll pairs).relabel a = some b → relabel a = some b := by
  have hvalid := claimAll_valid hpairs
  obtain ⟨relabel, hfill, hfilled⟩ := exists_fill hlabels (hlabels.filter _) hvalid.injective
    (fun b hb a ha => by
      have hunused : b ∉ (claimAll pairs).used := by simpa using (List.mem_filter.mp hb).2
      exact hunused ((hvalid.mem_used b).mpr ⟨a, ha⟩)) (hvalid.enough hlabels)
  have hsome : ∀ a ∈ labels, relabel a = some ((relabel a).getD a) := by
    intro a ha
    obtain ⟨b, hb⟩ := Option.ne_none_iff_exists'.mp (hfilled.total a ha)
    rw [hb, Option.getD_some]
  refine ⟨relabel, hfill, ⟨fun a => (relabel a).getD a, ?_, hsome⟩, hfilled.keeps⟩
  have hmaps : Set.MapsTo (fun a => (relabel a).getD a) {a | a ∈ labels} {a | a ∈ labels} := by
    intro a ha
    rcases hfilled.given a _ (hsome a ha) with h | ⟨-, h⟩
    · exact (hvalid.labels _ _ h).2
    · exact List.mem_of_mem_filter h
  refine ((List.finite_toSet labels).injOn_iff_bijOn_of_mapsTo hmaps).mp ?_
  intro a ha a' ha' heq
  have ha'' := hsome a' ha'
  rw [← show (relabel a).getD a = (relabel a').getD a' from heq] at ha''
  exact hfilled.injective a a' _ (hsome a ha) ha''

theorem claim_keeps (pair : α × α) (h : m.relabel a = some b) :
    (m.claim pair).relabel a = some b := by
  have hnot : ¬ ((m.relabel pair.1 = none ∧ pair.2 ∉ m.used) ∧ a = pair.1) := fun hboth => by
    rw [hboth.2, hboth.1.1] at h
    cases h
  rw [relabel_claim, if_neg hnot, h]

theorem foldl_claim_keeps (pairs : List (α × α)) (h : m.relabel a = some b) :
    (pairs.foldl Matching.claim m).relabel a = some b := by
  induction pairs generalizing m with
  | nil => exact h
  | cons p pairs ih => exact ih (claim_keeps p h)

theorem claimAll_renaming {π : α → α} (hlabels : ∀ p ∈ pairs, p.1 ∈ labels ∧ p.2 ∈ labels)
    (hπ : ∀ p ∈ pairs, p.2 = π p.1) (hinj : Set.InjOn π {a | a ∈ labels}) :
    ∀ p ∈ pairs, (claimAll pairs).relabel p.1 = some p.2 := by
  have hfold (m : Matching α) (hvalid : m.Valid labels)
      (hm : ∀ a b, m.relabel a = some b → b = π a) :
      ∀ p ∈ pairs, (pairs.foldl Matching.claim m).relabel p.1 = some p.2 := by
    induction pairs generalizing m with
    | nil => exact fun p hp => absurd hp List.not_mem_nil
    | cons p pairs ih =>
      obtain ⟨hp, hpairs⟩ := List.forall_mem_cons.mp hlabels
      obtain ⟨hpπ, hpairsπ⟩ := List.forall_mem_cons.mp hπ
      have hself : (m.claim p).relabel p.1 = some p.2 := by
        cases hrelabel : m.relabel p.1 with
        | some b =>
          rw [claim_keeps p hrelabel, hm _ _ hrelabel, hpπ]
        | none =>
          have hfree : p.2 ∉ m.used := by
            intro hused
            obtain ⟨a, ha⟩ := (hvalid.mem_used _).mp hused
            have hsame : π p.1 = π a := hpπ.symm.trans (hm a _ ha)
            obtain rfl := hinj hp.1 (hvalid.labels a _ ha).1 hsame
            rw [hrelabel] at ha
            cases ha
          rw [relabel_claim, if_pos ⟨⟨hrelabel, hfree⟩, rfl⟩]
      refine List.forall_mem_cons.mpr ⟨foldl_claim_keeps pairs hself, ?_⟩
      refine ih hpairs hpairsπ _ (hvalid.claim hp.1 hp.2) fun a b hab => ?_
      rw [relabel_claim] at hab
      split_ifs at hab with hboth
      · rw [hboth.2, ← hpπ]
        exact (Option.some.inj hab).symm
      · exact hm a b hab
  exact hfold .empty .empty fun a b h => nomatch h

end

end LabelMatching
