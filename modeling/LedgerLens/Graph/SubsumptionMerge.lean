import Mathlib.Data.Finset.Basic

/-!
# Merging by inclusion

Items that stand for sets arrive one by one. An item whose set is there already is joined to the
one that has it, an item inside a larger set is dropped, and an item takes the place of the first
set that it strictly contains.
-/
namespace SubsumptionMerge

variable {α V : Type*} [DecidableEq V] (set : α → Finset V) (join : α → α → α)

def mergeItem (x : α) : List α → List α
  | [] => [x]
  | y :: ys =>
    if set x = set y then join y x :: ys
    else if set x ⊂ set y then y :: ys
    else if set y ⊂ set x then x :: ys
    else y :: mergeItem x ys

def mergeAll (items merged : List α) : List α :=
  items.foldl (fun merged x => mergeItem set join x merged) merged

def KeepsSet : Prop := ∀ y x, set (join y x) = set y

variable {set join} {x y : α} {merged items : List α} {F : Finset V}

section

variable (hjoin : KeepsSet set join)
include hjoin

theorem mergeItem_covers (hy : y ∈ merged) : ∃ z ∈ mergeItem set join x merged, set y ⊆ set z := by
  induction merged with
  | nil => exact absurd hy List.not_mem_nil
  | cons w merged ih =>
    rw [mergeItem]
    rcases List.mem_cons.mp hy with rfl | hy
    · split_ifs with heq hlt hgt
      · exact ⟨_, List.mem_cons_self, (hjoin y x).ge⟩
      · exact ⟨y, List.mem_cons_self, subset_rfl⟩
      · exact ⟨x, List.mem_cons_self, hgt.subset⟩
      · exact ⟨y, List.mem_cons_self, subset_rfl⟩
    · split_ifs with heq hlt hgt
      iterate 3 exact ⟨y, List.mem_cons_of_mem _ hy, subset_rfl⟩
      obtain ⟨z, hz, hsub⟩ := ih hy
      exact ⟨z, List.mem_cons_of_mem _ hz, hsub⟩

theorem mergeItem_covers_self : ∃ z ∈ mergeItem set join x merged, set x ⊆ set z := by
  induction merged with
  | nil => exact ⟨x, List.mem_cons_self, subset_rfl⟩
  | cons w merged ih =>
    rw [mergeItem]
    split_ifs with heq hlt hgt
    · exact ⟨_, List.mem_cons_self, heq.le.trans (hjoin w x).ge⟩
    · exact ⟨w, List.mem_cons_self, hlt.subset⟩
    · exact ⟨x, List.mem_cons_self, subset_rfl⟩
    · obtain ⟨z, hz, hsub⟩ := ih
      exact ⟨z, List.mem_cons_of_mem _ hz, hsub⟩

theorem mergeAll_covers_merged (hy : y ∈ merged) :
    ∃ z ∈ mergeAll set join items merged, set y ⊆ set z := by
  induction items generalizing merged y with
  | nil => exact ⟨y, hy, subset_rfl⟩
  | cons x items ih =>
    obtain ⟨z, hz, hsub⟩ := mergeItem_covers (x := x) hjoin hy
    obtain ⟨z', hz', hsub'⟩ := ih hz
    exact ⟨z', hz', hsub.trans hsub'⟩

theorem mergeAll_covers (hy : y ∈ items) :
    ∃ z ∈ mergeAll set join items merged, set y ⊆ set z := by
  induction items generalizing merged with
  | nil => exact absurd hy List.not_mem_nil
  | cons x items ih =>
    rcases List.mem_cons.mp hy with rfl | hy
    · have hself : ∃ z ∈ mergeItem set join y merged, set y ⊆ set z := mergeItem_covers_self hjoin
      obtain ⟨z, hz, hsub⟩ := hself
      have hcovers : ∃ z' ∈ mergeAll set join items (mergeItem set join y merged),
          set z ⊆ set z' := mergeAll_covers_merged hjoin hz
      obtain ⟨z', hz', hsub'⟩ := hcovers
      exact ⟨z', hz', hsub.trans hsub'⟩
    · exact ih hy

end

theorem forall_mem_mergeItem {P : α → Prop} (hjoin : ∀ y x, P y → P (join y x)) (hx : P x)
    (hmerged : ∀ y ∈ merged, P y) : ∀ y ∈ mergeItem set join x merged, P y := by
  induction merged with
  | nil => exact fun y hy => List.mem_singleton.mp hy ▸ hx
  | cons w merged ih =>
    rw [List.forall_mem_cons] at hmerged
    rw [mergeItem]
    split_ifs with heq hlt hgt
    · exact List.forall_mem_cons.mpr ⟨hjoin w x hmerged.1, hmerged.2⟩
    · exact List.forall_mem_cons.mpr hmerged
    · exact List.forall_mem_cons.mpr ⟨hx, hmerged.2⟩
    · exact List.forall_mem_cons.mpr ⟨hmerged.1, ih hmerged.2⟩

theorem forall_mem_mergeAll {P : α → Prop} (hjoin : ∀ y x, P y → P (join y x))
    (hitems : ∀ x ∈ items, P x) (hmerged : ∀ y ∈ merged, P y) :
    ∀ y ∈ mergeAll set join items merged, P y := by
  induction items generalizing merged with
  | nil => exact hmerged
  | cons x items ih =>
    rw [List.forall_mem_cons] at hitems
    exact ih hitems.2 (forall_mem_mergeItem hjoin hitems.1 hmerged)

/-- No set that arrives strictly contains `F`. -/
def Maximal (set : α → Finset V) (items : List α) (F : Finset V) : Prop :=
  ∀ x ∈ items, ¬ F ⊂ set x

/-- One item has the set `F` and what `P` says. No item before it is inside `F`, and no other one
has the set. -/
inductive HeldBy (set : α → Finset V) (F : Finset V) (P : α → Prop) : List α → Prop where
  | here {y : α} {back : List α} (hset : set y = F) (hP : P y) (hback : ∀ z ∈ back, set z ≠ F) :
      HeldBy set F P (y :: back)
  | later {z : α} {rest : List α} (hz : ¬ set z ⊆ F) (hrest : HeldBy set F P rest) :
      HeldBy set F P (z :: rest)

section

variable {P : α → Prop}

omit [DecidableEq V] in
theorem HeldBy.exists_mem (h : HeldBy set F P merged) : ∃ y ∈ merged, set y = F ∧ P y := by
  induction h with
  | here hset hP _ => exact ⟨_, List.mem_cons_self, hset, hP⟩
  | later _ _ ih =>
    obtain ⟨y, hy, hset⟩ := ih
    exact ⟨y, List.mem_cons_of_mem _ hy, hset⟩

omit [DecidableEq V] in
theorem HeldBy.of_mem (h : HeldBy set F P merged) (hy : y ∈ merged) (hset : set y = F) : P y := by
  induction h with
  | here _ hP hback =>
    rcases List.mem_cons.mp hy with rfl | hy
    · exact hP
    · exact absurd hset (hback y hy)
  | later hz _ ih =>
    rcases List.mem_cons.mp hy with rfl | hy
    · exact absurd hset.subset hz
    · exact ih hy

variable (hjoin : KeepsSet set join)
include hjoin

/-- No later arrival takes the place of a maximal set. -/
theorem HeldBy.mergeItem (hP : ∀ y x, P y → P (join y x)) (h : HeldBy set F P merged)
    (hx : ¬ F ⊂ set x) : HeldBy set F P (mergeItem set join x merged) := by
  induction h with
  | @here y back hset hPy hback =>
    rw [SubsumptionMerge.mergeItem]
    split_ifs with heq hlt hgt
    · exact .here ((hjoin y x).trans hset) (hP y x hPy) hback
    · exact .here hset hPy hback
    · exact absurd (hset ▸ hgt) hx
    · refine .here hset hPy (forall_mem_mergeItem ?_ ?_ hback)
      · exact fun w z hw => by rwa [hjoin w z]
      · exact fun hxF => heq (hxF.trans hset.symm)
  | @later z rest hz hrest ih =>
    rw [SubsumptionMerge.mergeItem]
    split_ifs with heq hlt hgt
    · exact .later ((hjoin z x).symm ▸ hz) hrest
    · exact .later hz hrest
    · exact .later (fun hxF => hz (hgt.subset.trans hxF)) hrest
    · exact .later hz ih

theorem HeldBy.mergeAll (hP : ∀ y x, P y → P (join y x)) (h : HeldBy set F P merged)
    (hmax : Maximal set items F) : HeldBy set F P (mergeAll set join items merged) := by
  induction items generalizing merged with
  | nil => exact h
  | cons x items ih =>
    obtain ⟨hx, hitems⟩ := List.forall_mem_cons.mp hmax
    exact ih (h.mergeItem hjoin hP hx) hitems

omit hjoin in
theorem heldBy_mergeItem (hset : set x = F) (hPx : P x) (hfresh : ∀ y ∈ merged, set y ≠ F)
    (hmax : Maximal set merged F) : HeldBy set F P (mergeItem set join x merged) := by
  induction merged with
  | nil => exact .here hset hPx fun _ h => absurd h List.not_mem_nil
  | cons w merged ih =>
    obtain ⟨hw, hfresh⟩ := List.forall_mem_cons.mp hfresh
    obtain ⟨hmaxw, hmax⟩ := List.forall_mem_cons.mp hmax
    rw [SubsumptionMerge.mergeItem]
    split_ifs with heq hlt hgt
    · exact absurd (heq.symm.trans hset) hw
    · exact absurd (hset ▸ hlt) hmaxw
    · exact .here hset hPx hfresh
    · exact .later (fun hsub => hgt (hset ▸ hsub.ssubset_of_ne hw)) (ih hfresh hmax)

theorem heldBy_of_find? (hP : ∀ y x, P y → P (join y x)) (hmax : Maximal set items F)
    (hfind : items.find? (fun x => decide (set x = F)) = some x) (hPx : P x) :
    HeldBy set F P (SubsumptionMerge.mergeAll set join items []) := by
  obtain ⟨hset, before, after, rfl, hbefore⟩ := List.find?_eq_some_iff_append.mp hfind
  rw [decide_eq_true_eq] at hset
  obtain ⟨hmaxb, hmaxa⟩ := List.forall_mem_append.mp hmax
  rw [SubsumptionMerge.mergeAll, List.foldl_append, List.foldl_cons]
  refine HeldBy.mergeAll hjoin hP (heldBy_mergeItem hset hPx ?_ ?_)
    (List.forall_mem_cons.mp hmaxa).2
  · refine forall_mem_mergeAll (fun w z hw => by rwa [hjoin w z]) (fun z hz => ?_)
      fun _ h => absurd h List.not_mem_nil
    simpa using hbefore z hz
  · exact forall_mem_mergeAll (fun w z hw => by rwa [hjoin w z]) hmaxb
      fun _ h => absurd h List.not_mem_nil

theorem exists_mem_mergeAll_iff (hP : ∀ y x, P (join y x) ↔ P y) (hmax : Maximal set items F) :
    (∃ y ∈ SubsumptionMerge.mergeAll set join items [], set y = F ∧ P y) ↔
      ∃ x, items.find? (fun x => decide (set x = F)) = some x ∧ P x := by
  constructor
  · rintro ⟨y, hy, hset, hPy⟩
    cases hfind : items.find? fun x => decide (set x = F) with
    | none =>
      have hfresh : ∀ x ∈ items, set x ≠ F := fun x hx =>
        by simpa using List.find?_eq_none.mp hfind x hx
      exact absurd hset (forall_mem_mergeAll (P := fun x => set x ≠ F)
        (fun w z hw => by rwa [hjoin w z]) hfresh (fun _ h => absurd h List.not_mem_nil) y hy)
    | some x =>
      refine ⟨x, rfl, by_contra fun hPx => ?_⟩
      exact (heldBy_of_find? (P := fun x => ¬ P x) hjoin (fun w z hw => mt (hP w z).mp hw) hmax
        hfind hPx).of_mem hy hset hPy
  · rintro ⟨x, hfind, hPx⟩
    exact (heldBy_of_find? hjoin (fun w z => (hP w z).mpr) hmax hfind hPx).exists_mem

end

def Antichain (set : α → Finset V) (items : List α) : Prop :=
  items.Pairwise fun x y => ¬ set x ⊆ set y ∧ ¬ set y ⊆ set x

/-- The items that are maximal before `x` and strictly inside `x` have one set. -/
def OneInside (set : α → Finset V) (before : List α) (x : α) : Prop :=
  ∀ y ∈ before, ∀ z ∈ before, Maximal set before (set y) → Maximal set before (set z) →
    set y ⊂ set x → set z ⊂ set x → set y = set z

theorem mergeAll_concat : mergeAll set join (items ++ [x]) merged =
    mergeItem set join x (mergeAll set join items merged) := List.foldl_concat _ _ _ _

omit [DecidableEq V] in
theorem Antichain.eq_of_subset {z : α} (h : Antichain set merged) (hy : y ∈ merged)
    (hz : z ∈ merged) (hsub : set y ⊆ set z) : set y = set z := by
  have hpairs : merged.Pairwise fun y z => set y ⊆ set z → set y = set z :=
    h.imp fun hapart hsub => absurd hsub hapart.1
  have hflip : merged.Pairwise (flip fun y z => set y ⊆ set z → set y = set z) :=
    h.imp fun hapart hsub => absurd hsub hapart.2
  exact hpairs.forall_of_forall_of_flip (fun _ _ _ => rfl) hflip hy hz hsub

section

variable (hjoin : KeepsSet set join)
include hjoin

/-- An arrival takes the place of one set only, so it may have no other one inside. -/
theorem Antichain.mergeItem_iff (h : Antichain set merged) :
    Antichain set (SubsumptionMerge.mergeItem set join x merged) ↔
      ∀ y ∈ merged, ∀ z ∈ merged, set y ⊂ set x → set z ⊂ set x → set y = set z := by
  induction merged with
  | nil => exact iff_of_true (List.pairwise_singleton _ _) fun _ h => absurd h List.not_mem_nil
  | cons w merged ih =>
    have hfirst {v : α} (hv : v ∈ w :: merged) (hsub : set w ⊆ set v) : set w = set v :=
      h.eq_of_subset List.mem_cons_self hv hsub
    have hlast {v : α} (hv : v ∈ w :: merged) (hsub : set v ⊆ set w) : set v = set w :=
      h.eq_of_subset hv List.mem_cons_self hsub
    obtain ⟨hw, hmerged⟩ := List.pairwise_cons.mp h
    rw [SubsumptionMerge.mergeItem]
    split_ifs with heq hlt hgt
    · -- the arrival is joined to the first set, and nothing is strictly inside that
      refine iff_of_true (List.pairwise_cons.mpr ⟨fun v hv => ?_, hmerged⟩) ?_
      · rw [hjoin w x]
        exact hw v hv
      · intro y hy z _ hyx _
        rw [heq] at hyx
        exact absurd (hlast hy hyx.subset) hyx.ne
    · refine iff_of_true h fun y hy z _ hyx _ => ?_
      exact absurd (hlast hy (hyx.trans hlt).subset) (hyx.trans hlt).ne
    · constructor
      · intro hreplaced
        have hx := (List.pairwise_cons.mp hreplaced).1
        have honly {v : α} (hv : v ∈ w :: merged) (hvx : set v ⊂ set x) : set v = set w := by
          rcases List.mem_cons.mp hv with rfl | hv
          · rfl
          · exact absurd hvx.subset (hx v hv).2
        exact fun y hy z hz hyx hzx => (honly hy hyx).trans (honly hz hzx).symm
      · intro hone
        refine List.pairwise_cons.mpr ⟨fun v hv => ⟨fun hxv => ?_, fun hvx => ?_⟩, hmerged⟩
        · exact (hw v hv).1 (hgt.subset.trans hxv)
        · have hne : set v ≠ set x := fun heq => (hw v hv).1 (heq ▸ hgt.subset)
          have hsame := hone w List.mem_cons_self v (List.mem_cons_of_mem w hv) hgt
            (hvx.ssubset_of_ne hne)
          exact (hw v hv).1 hsame.subset
    · have hrest : ∀ v ∈ SubsumptionMerge.mergeItem set join x merged,
          ¬ set w ⊆ set v ∧ ¬ set v ⊆ set w := by
        refine forall_mem_mergeItem (fun v z hv => by rwa [hjoin v z]) ⟨?_, ?_⟩ hw
        · exact fun hwx => hgt (hwx.ssubset_of_ne (Ne.symm heq))
        · exact fun hxw => hlt (hxw.ssubset_of_ne heq)
      rw [Antichain, List.pairwise_cons, and_iff_right hrest]
      refine (ih hmerged).trans ⟨fun hone y hy z hz hyx hzx => ?_, fun hone y hy z hz => ?_⟩
      · rcases List.mem_cons.mp hy with rfl | hy
        · exact absurd hyx hgt
        rcases List.mem_cons.mp hz with rfl | hz
        · exact absurd hzx hgt
        exact hone y hy z hz hyx hzx
      · exact hone y (List.mem_cons_of_mem w hy) z (List.mem_cons_of_mem w hz)

theorem Antichain.mem_iff_maximal
    (h : Antichain set (SubsumptionMerge.mergeAll set join items [])) :
    (∃ y ∈ SubsumptionMerge.mergeAll set join items [], set y = F) ↔
      (∃ x ∈ items, set x = F) ∧ Maximal set items F := by
  have harrived : ∀ y ∈ SubsumptionMerge.mergeAll set join items [],
      ∃ x ∈ items, set x = set y := by
    refine forall_mem_mergeAll (fun y x hy => ?_) (fun x hx => ⟨x, hx, rfl⟩)
      fun _ h => absurd h List.not_mem_nil
    rwa [hjoin y x]
  have hcovers : ∀ x ∈ items, ∃ z ∈ SubsumptionMerge.mergeAll set join items [], set x ⊆ set z :=
    fun _ hx => mergeAll_covers hjoin hx
  constructor
  · rintro ⟨y, hy, rfl⟩
    refine ⟨harrived y hy, fun x hx hlt => ?_⟩
    obtain ⟨z, hz, hsub⟩ := hcovers x hx
    have hyz : set y ⊂ set z := hlt.trans_subset hsub
    exact hyz.ne (h.eq_of_subset hy hz hyz.subset)
  · rintro ⟨⟨x, hx, rfl⟩, hmax⟩
    obtain ⟨z, hz, hsub⟩ := hcovers x hx
    obtain ⟨x', hx', hset⟩ := harrived z hz
    refine ⟨z, hz, ?_⟩
    by_contra hne
    exact hmax x' hx' (hset ▸ hsub.ssubset_of_ne (Ne.symm hne))

theorem Antichain.concat_iff (h : Antichain set (SubsumptionMerge.mergeAll set join items [])) :
    Antichain set (SubsumptionMerge.mergeAll set join (items ++ [x]) []) ↔
      OneInside set items x := by
  rw [mergeAll_concat, h.mergeItem_iff hjoin]
  have hmaximal (F : Finset V) := h.mem_iff_maximal hjoin (F := F)
  constructor
  · intro hone y hy z hz hmaxy hmaxz hyx hzx
    obtain ⟨y', hy', hyset⟩ := (hmaximal (set y)).mpr ⟨⟨y, hy, rfl⟩, hmaxy⟩
    obtain ⟨z', hz', hzset⟩ := (hmaximal (set z)).mpr ⟨⟨z, hz, rfl⟩, hmaxz⟩
    rw [← hyset] at hyx ⊢
    rw [← hzset] at hzx ⊢
    exact hone y' hy' z' hz' hyx hzx
  · intro hone y hy z hz hyx hzx
    obtain ⟨⟨y', hy', hyset⟩, hmaxy⟩ := (hmaximal (set y)).mp ⟨y, hy, rfl⟩
    obtain ⟨⟨z', hz', hzset⟩, hmaxz⟩ := (hmaximal (set z)).mp ⟨z, hz, rfl⟩
    rw [← hyset] at hyx hmaxy ⊢
    rw [← hzset] at hzx hmaxz ⊢
    exact hone y' hy' z' hz' hmaxy hmaxz hyx hzx

/-- The sets are an antichain after every arrival exactly where none of the arrivals has two
maximal sets inside. -/
theorem forall_antichain_iff :
    (∀ before after, items = before ++ after →
        Antichain set (SubsumptionMerge.mergeAll set join before [])) ↔
      ∀ before x after, items = before ++ x :: after → OneInside set before x := by
  constructor
  · intro h before x after hitems
    have hbefore := h before (x :: after) hitems
    exact (hbefore.concat_iff hjoin).mp (h _ after (hitems.trans (List.append_cons ..)))
  · intro h before
    induction before using List.reverseRecOn with
    | nil => exact fun _ _ => List.Pairwise.nil
    | append_singleton before x ih =>
      intro after hitems
      rw [← List.append_cons] at hitems
      exact ((ih _ hitems).concat_iff hjoin).mpr (h before x after hitems)

theorem not_antichain_of_apart {a b : α} (ha : set a ⊂ set x) (hb : set b ⊂ set x)
    (hab : ¬ set a ⊆ set b) (hba : ¬ set b ⊆ set a) :
    ¬ Antichain set (SubsumptionMerge.mergeAll set join [a, b, x] []) := by
  have hone : Antichain set (SubsumptionMerge.mergeAll set join [a] []) :=
    List.pairwise_singleton _ _
  have htwo : Antichain set (SubsumptionMerge.mergeAll set join [a, b] []) := by
    refine (hone.concat_iff hjoin).mpr fun y hy z hz _ _ _ _ => ?_
    rw [List.mem_singleton.mp hy, List.mem_singleton.mp hz]
  intro hthree
  have hmax : Maximal set [a, b] (set a) ∧ Maximal set [a, b] (set b) := by
    constructor <;> intro w hw
    all_goals
      rcases List.mem_pair.mp hw with rfl | rfl
    · exact ssubset_irrefl _
    · exact fun hlt => hab hlt.subset
    · exact fun hlt => hba hlt.subset
    · exact ssubset_irrefl _
  have hsame := (htwo.concat_iff hjoin).mp hthree a List.mem_cons_self b (by simp) hmax.1 hmax.2
    ha hb
  exact hab hsame.subset

end

end SubsumptionMerge
