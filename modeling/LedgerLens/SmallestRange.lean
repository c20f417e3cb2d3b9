import Mathlib.Algebra.BigOperators.Group.Finset.Basic
import Mathlib.Algebra.Order.BigOperators.Group.Finset
import Mathlib.Algebra.Order.Ring.Defs
import Mathlib.Data.Finset.Max
import Mathlib.Data.List.MinMax
import Mathlib.Tactic.Linarith

/-!
# The smallest range with an entry of each list

Lists of keys in ascending order, swept from their first entries. A heap holds the current entry
of each list, and the list of its least entry moves on.
-/
namespace SmallestRange

section Heap

variable {K : Type*} [LinearOrder K] {heap rest : List (K × ℕ)} {first : K × ℕ}

def heappop : List (K × ℕ) → Option ((K × ℕ) × List (K × ℕ))
  | [] => none
  | entry :: heap =>
    match heappop heap with
    | none => some (entry, [])
    | some (first, rest) =>
      if entry.1 < first.1 ∨ entry.1 = first.1 ∧ entry.2 ≤ first.2 then some (entry, heap)
      else some (first, entry :: rest)

theorem heappop_eq_none : heappop heap = none ↔ heap = [] := by
  cases heap with
  | nil => exact iff_of_true rfl rfl
  | cons entry heap =>
    simp only [heappop, reduceCtorEq, iff_false]
    split
    · simp
    · split_ifs <;> simp

theorem heappop_spec (h : heappop heap = some (first, rest)) :
    heap.Perm (first :: rest) ∧ ∀ e ∈ heap, first.1 ≤ e.1 := by
  induction heap generalizing first rest with
  | nil => cases h
  | cons entry heap ih =>
    rw [heappop] at h
    cases hpop : heappop heap with
    | none =>
      rw [hpop] at h
      obtain rfl := heappop_eq_none.mp hpop
      obtain ⟨rfl, rfl⟩ := Prod.mk.inj (Option.some.inj h)
      exact ⟨.refl _, fun e he => by rw [List.mem_singleton.mp he]⟩
    | some popped =>
      obtain ⟨least, others⟩ := popped
      obtain ⟨hperm, hleast⟩ := ih hpop
      simp only [hpop] at h
      split_ifs at h with hle
      · obtain ⟨rfl, rfl⟩ := Prod.mk.inj (Option.some.inj h)
        refine ⟨.refl _, fun e he => ?_⟩
        rcases List.mem_cons.mp he with rfl | he
        · exact le_rfl
        · have hentry : entry.1 ≤ least.1 := hle.elim le_of_lt fun heq => heq.1.le
          exact hentry.trans (hleast e he)
      · obtain ⟨rfl, rfl⟩ := Prod.mk.inj (Option.some.inj h)
        refine ⟨(hperm.cons entry).trans (.swap _ _ _), fun e he => ?_⟩
        rcases List.mem_cons.mp he with rfl | he
        · exact not_lt.mp fun hlt => hle (.inl hlt)
        · exact hleast e he

end Heap

section Entries

variable {K : Type*} {lists : List (List K)} {t u : K} {i k m : ℕ}

/-- `lists[i][k]`, where it exists. -/
def entry (lists : List (List K)) (i k : ℕ) : Option K := lists[i]?.bind (·[k]?)

theorem lt_of_entry (h : entry lists i k = some t) : i < lists.length := by
  obtain ⟨l, hl, -⟩ := Option.bind_eq_some_iff.mp h
  exact (List.getElem?_eq_some_iff.mp hl).1

theorem exists_entry_of_le (h : entry lists i m = some u) (hle : k ≤ m) :
    ∃ t, entry lists i k = some t := by
  obtain ⟨l, hl, hu⟩ := Option.bind_eq_some_iff.mp h
  have hk : k < l.length := hle.trans_lt (List.getElem?_eq_some_iff.mp hu).1
  exact ⟨l[k], Option.bind_eq_some_iff.mpr ⟨l, hl, List.getElem?_eq_getElem hk⟩⟩

variable {p : ℕ → ℕ} {j li : ℕ} {least next : K}

theorem current_advance (hnext : entry lists li (p li + 1) = some next)
    (hu : entry lists j (Function.update p li (p li + 1) j) = some u) :
    j = li ∧ u = next ∨ j ≠ li ∧ entry lists j (p j) = some u := by
  by_cases hj : j = li
  · subst hj
    rw [Function.update_self, hnext] at hu
    exact .inl ⟨rfl, (Option.some.inj hu).symm⟩
  · rw [Function.update_of_ne hj] at hu
    exact .inr ⟨hj, hu⟩

theorem passed_advance (hli : entry lists li (p li) = some least)
    (hk : k < Function.update p li (p li + 1) i) (ht : entry lists i k = some t) :
    k < p i ∨ t = least := by
  by_cases hi : i = li
  · subst hi
    rw [Function.update_self] at hk
    rcases Nat.lt_or_eq_of_le (Nat.lt_succ_iff.mp hk) with hlt | rfl
    · exact .inl hlt
    · exact .inr (Option.some.inj (ht.symm.trans hli))
  · rw [Function.update_of_ne hi] at hk
    exact .inl hk

/-- The entries from the pointers on. -/
def remaining (lists : List (List K)) (p : ℕ → ℕ) : ℕ :=
  ∑ i ∈ Finset.range lists.length, ((lists[i]?.getD []).length - p i)

theorem remaining_start (lists : List (List K)) :
    remaining lists (fun _ => 0) = lists.flatten.length := by
  induction lists with
  | nil => rfl
  | cons l lists ih =>
    rw [remaining] at ih ⊢
    rw [List.length_cons, Finset.sum_range_succ', List.flatten_cons, List.length_append, ← ih]
    simp [add_comm]

theorem lt_length_of_entry (h : entry lists i k = some t) : k < (lists[i]?.getD []).length := by
  obtain ⟨l, hl, ht⟩ := Option.bind_eq_some_iff.mp h
  rw [hl]
  exact (List.getElem?_eq_some_iff.mp ht).1

theorem remaining_update (h : entry lists li (p li) = some t) :
    remaining lists (Function.update p li (p li + 1)) < remaining lists p := by
  have hlt := lt_length_of_entry h
  refine Finset.sum_lt_sum (fun i _ => ?_) ⟨li, Finset.mem_range.mpr (lt_of_entry h), ?_⟩
  · by_cases hi : i = li
    · subst hi
      rw [Function.update_self]
      omega
    · rw [Function.update_of_ne hi]
  · rw [Function.update_self]
    omega

theorem mem_heads : t ∈ lists.filterMap List.head? ↔ ∃ i, entry lists i 0 = some t := by
  rw [List.mem_filterMap]
  constructor
  · rintro ⟨l, hl, ht⟩
    obtain ⟨i, hi⟩ := List.getElem?_of_mem hl
    exact ⟨i, Option.bind_eq_some_iff.mpr ⟨l, hi, List.head?_eq_getElem? ▸ ht⟩⟩
  · rintro ⟨i, hi⟩
    obtain ⟨l, hl, ht⟩ := Option.bind_eq_some_iff.mp hi
    exact ⟨l, List.mem_of_getElem? hl, List.head?_eq_getElem?.trans ht⟩

variable [LinearOrder K]

def Ascending (lists : List (List K)) : Prop := ∀ l ∈ lists, l.Pairwise (· ≤ ·)

theorem Ascending.entry_le (h : Ascending lists) (ht : entry lists i k = some t)
    (hu : entry lists i m = some u) (hle : k ≤ m) : t ≤ u := by
  obtain ⟨l, hl, ht⟩ := Option.bind_eq_some_iff.mp ht
  obtain ⟨l', hl', hu⟩ := Option.bind_eq_some_iff.mp hu
  rw [hl] at hl'
  obtain rfl := Option.some.inj hl'
  obtain ⟨hk, rfl⟩ := List.getElem?_eq_some_iff.mp ht
  obtain ⟨hm, rfl⟩ := List.getElem?_eq_some_iff.mp hu
  rcases Nat.lt_or_eq_of_le hle with hlt | rfl
  · exact List.pairwise_iff_getElem.mp (h l (List.mem_of_getElem? hl)) k m hk hm hlt
  · exact le_rfl

end Entries

variable {K : Type*} [Field K] [LinearOrder K]

def Covers (lists : List (List K)) (start width : K) : Prop :=
  ∀ l ∈ lists, ∃ t ∈ l, start ≤ t ∧ t ≤ start + width

structure Smallest (lists : List (List K)) (start width : K) : Prop where
  covers : Covers lists start width
  shortest : ∀ start' width', Covers lists start' width' → width ≤ width'
  earliest : ∀ start', Covers lists start' width → start ≤ start'

theorem Smallest.unique {lists : List (List K)} {start start' width width' : K}
    (h : Smallest lists start width) (h' : Smallest lists start' width') :
    start = start' ∧ width = width' := by
  have hwidth : width = width' :=
    le_antisymm (h.shortest _ _ h'.covers) (h'.shortest _ _ h.covers)
  subst hwidth
  exact ⟨le_antisymm (h.earliest _ h'.covers) (h'.earliest _ h.covers), rfl⟩

theorem Covers.congr {lists lists' : List (List K)} {start width : K}
    (hmem : ∀ l, l ∈ lists ↔ l ∈ lists') : Covers lists start width ↔ Covers lists' start width :=
  forall_congr' fun l => imp_congr_left (hmem l)

theorem Smallest.congr {lists lists' : List (List K)} {start width : K}
    (hmem : ∀ l, l ∈ lists ↔ l ∈ lists') (h : Smallest lists start width) :
    Smallest lists' start width where
  covers := (Covers.congr hmem).mp h.covers
  shortest _ _ hcovers := h.shortest _ _ ((Covers.congr hmem).mpr hcovers)
  earliest _ hcovers := h.earliest _ ((Covers.congr hmem).mpr hcovers)

structure Sweep (K : Type*) where
  pointers : ℕ → ℕ
  heap : List (K × ℕ)
  currentMax : K
  /-- The infinite range is `none`. -/
  bestRange : Option K
  bestChoice : ℕ → ℕ

namespace Sweep

/-- The current entries are taken where their range is shorter than every one so far. -/
def improve (s : Sweep K) (least : K) : Sweep K :=
  if ∀ range ∈ s.bestRange, s.currentMax - least < range then
    { s with bestRange := some (s.currentMax - least), bestChoice := s.pointers }
  else s

def advance (s : Sweep K) (li : ℕ) (next : K) (heap : List (K × ℕ)) : Sweep K :=
  { s with
    pointers := Function.update s.pointers li (s.pointers li + 1)
    heap := (next, li) :: heap
    currentMax := max s.currentMax next }

end Sweep

def loop (lists : List (List K)) : ℕ → Sweep K → Option (Sweep K)
  | 0, _ => none
  | fuel + 1, s =>
    match heappop s.heap with
    | none => none
    | some ((least, li), heap) =>
      match entry lists li (s.pointers li + 1) with
      | none => some (s.improve least)
      | some next => loop lists fuel ((s.improve least).advance li next heap)

/-- As many passes as there are entries are enough. -/
def sweep (lists : List (List K)) : Option (Sweep K) :=
  match (lists.filterMap List.head?).max? with
  | none => none
  | some currentMax =>
    loop lists lists.flatten.length
      { pointers := fun _ => 0
        heap := (List.range lists.length).filterMap fun i => (entry lists i 0).map (·, i)
        currentMax := currentMax
        bestRange := none
        bestChoice := fun _ => 0 }

variable {lists : List (List K)} {s : Sweep K} {start width t u : K} {i k m : ℕ}

theorem covers_iff : Covers lists start width ↔
    ∀ i < lists.length, ∃ k t, entry lists i k = some t ∧ start ≤ t ∧ t ≤ start + width := by
  constructor
  · intro h i hi
    obtain ⟨t, ht, hrange⟩ := h lists[i] (List.getElem_mem hi)
    obtain ⟨k, hk⟩ := List.getElem?_of_mem ht
    refine ⟨k, t, ?_, hrange⟩
    exact Option.bind_eq_some_iff.mpr ⟨lists[i], List.getElem?_eq_getElem hi, hk⟩
  · intro h l hl
    obtain ⟨i, hi⟩ := List.getElem?_of_mem hl
    obtain ⟨k, t, hentry, hrange⟩ := h i (List.getElem?_eq_some_iff.mp hi).1
    obtain ⟨l', hl', ht⟩ := Option.bind_eq_some_iff.mp hentry
    rw [hi] at hl'
    obtain rfl := Option.some.inj hl'
    exact ⟨t, List.mem_of_getElem? ht, hrange⟩

/-- Of each list the first entry from `start` on is chosen, and these are in the range. -/
def Chosen (lists : List (List K)) (start width : K) (choice : ℕ → ℕ) : Prop :=
  ∀ i < lists.length, ∃ t, entry lists i (choice i) = some t ∧ start ≤ t ∧ t ≤ start + width ∧
    ∀ k < choice i, ∀ u, entry lists i k = some u → u < start

theorem Chosen.covers {choice : ℕ → ℕ} (h : Chosen lists start width choice) :
    Covers lists start width := by
  rw [covers_iff]
  intro i hi
  obtain ⟨t, hentry, hfrom, hto, -⟩ := h i hi
  exact ⟨choice i, t, hentry, hfrom, hto⟩

/-- A range from `t` is no shorter than the best one, and longer where it would come before it. -/
def Settled (lists : List (List K)) (start width t : K) : Prop :=
  ∀ w, Covers lists t w → width ≤ w ∧ (t < start → width < w)

structure Best (lists : List (List K)) (s : Sweep K) (start width : K) : Prop where
  bestRange : s.bestRange = some width
  chosen : Chosen lists start width s.bestChoice
  start_le : ∀ i u, entry lists i (s.pointers i) = some u → start ≤ u
  settled : ∀ i k t, k < s.pointers i → entry lists i k = some t → Settled lists start width t

/-- What holds whenever the loop looks at the heap. -/
structure Invariant (lists : List (List K)) (s : Sweep K) : Prop where
  current : ∀ i < lists.length, ∃ t, entry lists i (s.pointers i) = some t
  heap_nodup : s.heap.Nodup
  mem_heap : ∀ t i, (t, i) ∈ s.heap ↔ entry lists i (s.pointers i) = some t
  max_mem : ∃ i, entry lists i (s.pointers i) = some s.currentMax
  le_max : ∀ i t, entry lists i (s.pointers i) = some t → t ≤ s.currentMax
  passed_le : ∀ i k t, k < s.pointers i → entry lists i k = some t →
    ∀ j u, entry lists j (s.pointers j) = some u → t ≤ u
  best : (s.bestRange = none ∧ ∀ i, s.pointers i = 0) ∨ ∃ start width, Best lists s start width

namespace Sweep

@[simp] theorem improve_pointers : (s.improve t).pointers = s.pointers := by
  rw [improve]
  split_ifs <;> rfl

@[simp] theorem improve_currentMax : (s.improve t).currentMax = s.currentMax := by
  rw [improve]
  split_ifs <;> rfl

end Sweep

theorem improve_eq (h : Best lists s start width)
    (hle : width ≤ s.currentMax - t) : s.improve t = s := by
  rw [Sweep.improve, if_neg]
  intro hlt
  exact absurd (hlt width h.bestRange) (not_lt.mpr hle)

section Steps

variable {least next : K} {li : ℕ} {heap : List (K × ℕ)}

theorem Invariant.mem_rest (h : Invariant lists s)
    (hperm : s.heap.Perm ((least, li) :: heap)) :
    (t, i) ∈ heap ↔ i ≠ li ∧ entry lists i (s.pointers i) = some t := by
  have hnodup := List.nodup_cons.mp (hperm.nodup_iff.mp h.heap_nodup)
  have hli : entry lists li (s.pointers li) = some least :=
    (h.mem_heap _ _).mp (hperm.mem_iff.mpr List.mem_cons_self)
  rw [← h.mem_heap, hperm.mem_iff, List.mem_cons]
  constructor
  · intro hmem
    refine ⟨?_, .inr hmem⟩
    rintro rfl
    have ht := (h.mem_heap _ _).mp (hperm.mem_iff.mpr (List.mem_cons_of_mem _ hmem))
    obtain rfl : least = t := Option.some.inj (hli.symm.trans ht)
    exact hnodup.1 hmem
  · rintro ⟨hne, heq | hmem⟩
    · exact absurd (Prod.mk.inj heq).2 hne
    · exact hmem

theorem Best.settled_of_last (hasc : Ascending lists) (hbest : Best lists s start width)
    (hsettled : Settled lists start width least) (hli : entry lists li (s.pointers li) = some least)
    (hleast : ∀ j u, entry lists j (s.pointers j) = some u → least ≤ u)
    (hlast : entry lists li (s.pointers li + 1) = none) (ht : entry lists i k = some t) :
    Settled lists start width t := by
  rcases Nat.lt_or_ge k (s.pointers i) with hk | hk
  · exact hbest.settled i k t hk ht
  · obtain ⟨u, hu⟩ := exists_entry_of_le ht hk
    have hle : least ≤ t := (hleast i u hu).trans (hasc.entry_le hu ht hk)
    rcases hle.eq_or_lt with rfl | hlt
    · exact hsettled
    · intro w hw
      obtain ⟨m, v, hv, hfrom, -⟩ := covers_iff.mp hw li (lt_of_entry hli)
      rcases Nat.lt_or_ge (s.pointers li) m with hm | hm
      · obtain ⟨next, hnext⟩ := exists_entry_of_le hv hm
        rw [hlast] at hnext
        cases hnext
      · exact absurd (hlt.trans_le (hfrom.trans (hasc.entry_le hv hli hm))) (lt_irrefl _)

theorem Invariant.init (hlists : ∀ l ∈ lists, l ≠ []) {greatest : K} {choice : ℕ → ℕ}
    (hmax : (lists.filterMap List.head?).max? = some greatest) :
    Invariant lists
      { pointers := fun _ => 0
        heap := (List.range lists.length).filterMap fun i => (entry lists i 0).map (·, i)
        currentMax := greatest
        bestRange := none
        bestChoice := choice } := by
  obtain ⟨hmem, hle⟩ := List.max?_eq_some_iff.mp hmax
  constructor
  case current =>
    intro i hi
    have hpos := List.length_pos_iff.mpr (hlists lists[i] (List.getElem_mem hi))
    refine ⟨lists[i][0], Option.bind_eq_some_iff.mpr ⟨lists[i], ?_, ?_⟩⟩
    · exact List.getElem?_eq_getElem hi
    · exact List.getElem?_eq_getElem hpos
  case heap_nodup =>
    refine List.Nodup.filterMap (fun i j e hi hj => ?_) List.nodup_range
    obtain ⟨t, -, rfl⟩ := Option.map_eq_some_iff.mp hi
    obtain ⟨u, -, heq⟩ := Option.map_eq_some_iff.mp hj
    exact (Prod.mk.inj heq).2.symm
  case mem_heap =>
    intro t i
    rw [List.mem_filterMap]
    constructor
    · rintro ⟨j, -, hj⟩
      obtain ⟨u, hu, heq⟩ := Option.map_eq_some_iff.mp hj
      obtain ⟨rfl, rfl⟩ := Prod.mk.inj heq
      exact hu
    · intro ht
      exact ⟨i, List.mem_range.mpr (lt_of_entry ht), by rw [ht]; rfl⟩
  case max_mem => exact mem_heads.mp hmem
  case le_max => exact fun i t ht => hle t (mem_heads.mpr ⟨i, ht⟩)
  case passed_le => exact fun i k t hk => absurd hk (Nat.not_lt_zero k)
  case best => exact .inl ⟨rfl, fun _ => rfl⟩

variable [IsStrictOrderedRing K]

theorem Invariant.covers (h : Invariant lists s)
    (hleast : ∀ j u, entry lists j (s.pointers j) = some u → least ≤ u) :
    Covers lists least (s.currentMax - least) := by
  rw [covers_iff]
  intro i hi
  obtain ⟨t, ht⟩ := h.current i hi
  have hmax := h.le_max i t ht
  exact ⟨s.pointers i, t, ht, hleast i t ht, by linarith⟩

theorem Invariant.chosen (h : Invariant lists s)
    (hleast : ∀ j u, entry lists j (s.pointers j) = some u → least ≤ u)
    (hpassed : ∀ i k t, k < s.pointers i → entry lists i k = some t → t < least) :
    Chosen lists least (s.currentMax - least) s.pointers := by
  intro i hi
  obtain ⟨t, ht⟩ := h.current i hi
  have hmax := h.le_max i t ht
  exact ⟨t, ht, hleast i t ht, by linarith, fun k hk u hu => hpassed i k u hk hu⟩

/-- Where all that is passed came before it, no range from the least entry is shorter than the one
of the current entries. -/
theorem Invariant.le_of_covers (hasc : Ascending lists) (h : Invariant lists s)
    (hpassed : ∀ i k t, k < s.pointers i → entry lists i k = some t → t < least)
    (hcovers : Covers lists least width) : s.currentMax - least ≤ width := by
  obtain ⟨i, hmax⟩ := h.max_mem
  obtain ⟨k, t, hentry, hfrom, hto⟩ := covers_iff.mp hcovers i (lt_of_entry hmax)
  have hk : s.pointers i ≤ k := by
    by_contra hlt
    exact absurd (hpassed i k t (not_le.mp hlt) hentry) (not_lt.mpr hfrom)
  have := hasc.entry_le hmax hentry hk
  linarith

/-- After the test the least entry counts among those that the best range was compared with. -/
theorem Invariant.improve (hasc : Ascending lists) (h : Invariant lists s)
    (hli : entry lists li (s.pointers li) = some least)
    (hleast : ∀ j u, entry lists j (s.pointers j) = some u → least ≤ u) :
    ∃ start width, Best lists (s.improve least) start width ∧
      Settled lists start width least := by
  by_cases hpassed : ∀ i k t, k < s.pointers i → entry lists i k = some t → t < least
  · by_cases hshorter : ∀ range ∈ s.bestRange, s.currentMax - least < range
    · have himprove : s.improve least = { s with
          bestRange := some (s.currentMax - least), bestChoice := s.pointers } := if_pos hshorter
      refine ⟨least, s.currentMax - least, ?_, fun w hw =>
        ⟨h.le_of_covers hasc hpassed hw, fun hlt => absurd hlt (lt_irrefl _)⟩⟩
      rw [himprove]
      refine ⟨rfl, h.chosen hleast hpassed, hleast, fun i k t hk ht w hw => ?_⟩
      rcases h.best with ⟨-, hzero⟩ | ⟨start, width, hbest⟩
      · exact absurd (hk.trans_eq (hzero i)) (Nat.not_lt_zero k)
      · have hbefore := (hbest.settled i k t hk ht w hw).1
        have hbetter := hshorter width hbest.bestRange
        exact ⟨by linarith, fun _ => by linarith⟩
    · push Not at hshorter
      obtain ⟨range, hrange, hle⟩ := hshorter
      rcases h.best with ⟨hnone, -⟩ | ⟨start, width, hbest⟩
      · rw [hnone] at hrange
        cases hrange
      · obtain rfl : width = range :=
          Option.some.inj (hbest.bestRange.symm.trans hrange)
        refine ⟨start, width, (improve_eq hbest hle).symm ▸ hbest, fun w hw => ?_⟩
        have hcurrent := h.le_of_covers hasc hpassed hw
        have hstart := hbest.start_le li least hli
        exact ⟨hle.trans hcurrent, fun hlt => absurd hlt (not_lt.mpr hstart)⟩
  · push Not at hpassed
    obtain ⟨i, k, t, hk, ht, hge⟩ := hpassed
    obtain rfl : t = least := le_antisymm (h.passed_le i k t hk ht li least hli) hge
    rcases h.best with ⟨-, hzero⟩ | ⟨start, width, hbest⟩
    · exact absurd (hk.trans_eq (hzero i)) (Nat.not_lt_zero k)
    · have hsettled := hbest.settled i k t hk ht
      have hle := (hsettled _ (h.covers hleast)).1
      exact ⟨start, width, (improve_eq hbest hle).symm ▸ hbest, hsettled⟩

theorem Invariant.advance (hasc : Ascending lists) (h : Invariant lists s)
    (hpop : heappop s.heap = some ((least, li), heap))
    (hnext : entry lists li (s.pointers li + 1) = some next) :
    Invariant lists ((s.improve least).advance li next heap) := by
  obtain ⟨hperm, hmin⟩ := heappop_spec hpop
  have hli : entry lists li (s.pointers li) = some least :=
    (h.mem_heap _ _).mp (hperm.mem_iff.mpr List.mem_cons_self)
  have hleast (j : ℕ) (u : K) (hu : entry lists j (s.pointers j) = some u) : least ≤ u :=
    hmin (u, j) ((h.mem_heap u j).mpr hu)
  have hle : least ≤ next := hasc.entry_le hli hnext (Nat.le_succ _)
  obtain ⟨start, width, hbest, hsettled⟩ := h.improve hasc hli hleast
  have hpointers : ((s.improve least).advance li next heap).pointers =
      Function.update s.pointers li (s.pointers li + 1) := by
    simp only [Sweep.advance, Sweep.improve_pointers]
  have hmax : ((s.improve least).advance li next heap).currentMax = max s.currentMax next := by
    simp only [Sweep.advance, Sweep.improve_currentMax]
  have hfrom (j : ℕ) (u : K)
      (hu : entry lists j (Function.update s.pointers li (s.pointers li + 1) j) = some u) :
      least ≤ u := by
    rcases current_advance hnext hu with ⟨-, rfl⟩ | ⟨-, hu⟩
    · exact hle
    · exact hleast j u hu
  constructor
  case current =>
    intro i hi
    rw [hpointers]
    by_cases heq : i = li
    · subst heq
      exact ⟨next, by rw [Function.update_self, hnext]⟩
    · rw [Function.update_of_ne heq]
      exact h.current i hi
  case heap_nodup =>
    refine List.nodup_cons.mpr ⟨fun hmem => ((h.mem_rest hperm).mp hmem).1 rfl, ?_⟩
    exact (List.nodup_cons.mp (hperm.nodup_iff.mp h.heap_nodup)).2
  case mem_heap =>
    intro t i
    have hheap : ((s.improve least).advance li next heap).heap = (next, li) :: heap := rfl
    rw [hpointers, hheap, List.mem_cons, h.mem_rest hperm]
    constructor
    · rintro (heq | ⟨hne, ht⟩)
      · obtain ⟨rfl, rfl⟩ := Prod.mk.inj heq
        rw [Function.update_self, hnext]
      · rw [Function.update_of_ne hne, ht]
    · intro ht
      rcases current_advance hnext ht with ⟨rfl, rfl⟩ | hother
      · exact .inl rfl
      · exact .inr hother
  case max_mem =>
    rw [hpointers, hmax]
    obtain ⟨i, hi⟩ := h.max_mem
    rcases le_or_gt s.currentMax next with hle' | hgt
    · exact ⟨li, by rw [max_eq_right hle', Function.update_self, hnext]⟩
    · have hne : i ≠ li := by
        rintro rfl
        have heq : least = s.currentMax := Option.some.inj (hli.symm.trans hi)
        exact absurd (heq ▸ hle) (not_le.mpr hgt)
      exact ⟨i, by rw [max_eq_left hgt.le, Function.update_of_ne hne, hi]⟩
  case le_max =>
    intro i t ht
    rw [hpointers] at ht
    rw [hmax]
    rcases current_advance hnext ht with ⟨-, rfl⟩ | ⟨-, ht⟩
    · exact le_max_right _ _
    · exact (h.le_max i t ht).trans (le_max_left _ _)
  case passed_le =>
    intro i k t hk ht j u hu
    rw [hpointers] at hk hu
    rcases passed_advance hli hk ht with hk | rfl
    · exact (h.passed_le i k t hk ht li least hli).trans (hfrom j u hu)
    · exact hfrom j u hu
  case best =>
    refine .inr ⟨start, width, hbest.bestRange, hbest.chosen, fun j u hu => ?_, ?_⟩
    · rw [hpointers] at hu
      have hstart := hbest.start_le li least (by rw [Sweep.improve_pointers, hli])
      exact hstart.trans (hfrom j u hu)
    · intro i k t hk ht
      rw [hpointers] at hk
      rcases passed_advance hli hk ht with hk | rfl
      · exact hbest.settled i k t (by rwa [Sweep.improve_pointers]) ht
      · exact hsettled

theorem Covers.exists_entry (hne : lists ≠ []) (h : Covers lists start width) :
    ∃ i k t, entry lists i k = some t ∧ start ≤ t ∧ Covers lists t (width - (t - start)) := by
  have hsome : (lists.flatten.toFinset.filter (start ≤ ·)).Nonempty := by
    obtain ⟨l, hl⟩ := List.exists_mem_of_ne_nil lists hne
    obtain ⟨t, ht, hfrom, -⟩ := h l hl
    exact ⟨t, Finset.mem_filter.mpr
      ⟨List.mem_toFinset.mpr (List.mem_flatten.mpr ⟨l, hl, ht⟩), hfrom⟩⟩
  obtain ⟨t, ht, hmin⟩ := Finset.exists_min_image _ id hsome
  obtain ⟨hmem, hfrom⟩ := Finset.mem_filter.mp ht
  obtain ⟨l, hl, htl⟩ := List.mem_flatten.mp (List.mem_toFinset.mp hmem)
  obtain ⟨i, hi⟩ := List.getElem?_of_mem hl
  obtain ⟨k, hk⟩ := List.getElem?_of_mem htl
  refine ⟨i, k, t, Option.bind_eq_some_iff.mpr ⟨l, hi, hk⟩, hfrom, fun l' hl' => ?_⟩
  obtain ⟨u, hu, hfrom', hto⟩ := h l' hl'
  have hle : t ≤ u := hmin u (Finset.mem_filter.mpr
    ⟨List.mem_toFinset.mpr (List.mem_flatten.mpr ⟨l', hl', hu⟩), hfrom'⟩)
  exact ⟨u, hu, hle, by linarith⟩

theorem Chosen.smallest (hne : lists ≠ []) {choice : ℕ → ℕ}
    (hchosen : Chosen lists start width choice)
    (h : ∀ i k t, entry lists i k = some t → Settled lists start width t) :
    Smallest lists start width where
  covers := hchosen.covers
  shortest start' width' hcovers := by
    obtain ⟨i, k, t, ht, hfrom, hcovers⟩ := hcovers.exists_entry hne
    have := (h i k t ht _ hcovers).1
    linarith
  earliest start' hcovers := by
    obtain ⟨i, k, t, ht, hfrom, hcovers⟩ := hcovers.exists_entry hne
    obtain ⟨hle, hlt⟩ := h i k t ht _ hcovers
    by_contra hbefore
    have heq : t = start' := by linarith
    have := hlt (heq.trans_lt (not_le.mp hbefore))
    linarith

theorem Invariant.loop (hasc : Ascending lists) (hne : lists ≠ []) {fuel : ℕ}
    (h : Invariant lists s) (hfuel : remaining lists s.pointers ≤ fuel) :
    ∃ final start width, loop lists fuel s = some final ∧ final.bestRange = some width ∧
      Chosen lists start width final.bestChoice ∧ Smallest lists start width := by
  induction fuel generalizing s with
  | zero =>
    obtain ⟨i, hi⟩ := h.max_mem
    have := remaining_update hi
    omega
  | succ fuel ih =>
    cases hpop : heappop s.heap with
    | none =>
      obtain ⟨i, hi⟩ := h.max_mem
      have hmem := (h.mem_heap _ _).mpr hi
      rw [heappop_eq_none.mp hpop] at hmem
      cases hmem
    | some popped =>
      obtain ⟨⟨least, li⟩, heap⟩ := popped
      obtain ⟨hperm, hmin⟩ := heappop_spec hpop
      have hli : entry lists li (s.pointers li) = some least :=
        (h.mem_heap _ _).mp (hperm.mem_iff.mpr List.mem_cons_self)
      have hleast (j : ℕ) (u : K) (hu : entry lists j (s.pointers j) = some u) : least ≤ u :=
        hmin (u, j) ((h.mem_heap u j).mpr hu)
      cases hnext : entry lists li (s.pointers li + 1) with
      | none =>
        obtain ⟨start, width, hbest, hsettled⟩ := h.improve hasc hli hleast
        refine ⟨s.improve least, start, width, ?_, hbest.bestRange, hbest.chosen, ?_⟩
        · simp only [SmallestRange.loop, hpop, hnext]
        · refine hbest.chosen.smallest hne fun i k t ht => ?_
          rw [← Sweep.improve_pointers (t := least)] at hli hleast hnext
          exact hbest.settled_of_last hasc hsettled hli hleast hnext ht
      | some next =>
        have hless : remaining lists ((s.improve least).advance li next heap).pointers ≤ fuel := by
          have := remaining_update hli
          simp only [Sweep.advance, Sweep.improve_pointers]
          omega
        obtain ⟨final, start, width, hloop, hfinal⟩ := ih (h.advance hasc hpop hnext) hless
        refine ⟨final, start, width, ?_, hfinal⟩
        simp only [SmallestRange.loop, hpop, hnext]
        exact hloop

theorem sweep_smallest (hasc : Ascending lists) (hlists : ∀ l ∈ lists, l ≠ [])
    (hne : lists ≠ []) :
    ∃ final start width, sweep lists = some final ∧ final.bestRange = some width ∧
      Chosen lists start width final.bestChoice ∧ Smallest lists start width := by
  cases hmax : (lists.filterMap List.head?).max? with
  | none =>
    obtain ⟨l, hl⟩ := List.exists_mem_of_ne_nil lists hne
    obtain ⟨t, ht⟩ := Option.ne_none_iff_exists'.mp fun h =>
      hlists l hl (List.head?_eq_none_iff.mp h)
    have hmem := List.mem_filterMap.mpr ⟨l, hl, ht⟩
    rw [List.max?_eq_none_iff.mp hmax] at hmem
    cases hmem
  | some greatest =>
    rw [sweep]
    simp only [hmax]
    exact (Invariant.init hlists hmax).loop hasc hne (remaining_start lists).le

end Steps

end SmallestRange
