import LedgerLens.PathCycleCompleteness
import Mathlib.Data.List.Forall2

/-!
# One timestamped payment for each edge

`_select_timed_cycle_edges` returns a choice of the least span, or none where every choice is longer
than the window. An edge without any payment ends the selection before the times are looked at.
-/
namespace TimedSelection

open PathCycleCompleteness PathCycleDetector SimpleCycles SmallestRange

def HasTime (payments : List PathHop) : Prop := ∃ hop ∈ payments, hop.timestamp.isSome

instance (payments : List PathHop) : Decidable (HasTime payments) :=
  inferInstanceAs (Decidable (∃ hop ∈ payments, _))

def timedEdges (hops : List (List PathHop)) : List (List PathHop) := hops.filter (HasTime ·)

def untimedEdges (hops : List (List PathHop)) : List (List PathHop) := hops.filter (¬ HasTime ·)

/-- One payment with a time of each edge that has one, in the order of the edges. -/
def TimedChoice (hops : List (List PathHop)) (choice : List PathHop) : Prop :=
  List.Forall₂ (fun payments hop => hop ∈ payments ∧ hop.timestamp.isSome) (timedEdges hops) choice

/-- The payments that have a time lie no further apart than `window`. -/
def Spans (window : ℚ) (choice : List PathHop) : Prop :=
  ∀ first ∈ choice.filterMap PathHop.timestamp, ∀ last ∈ choice.filterMap PathHop.timestamp,
    last - first ≤ window

structure Tightest (window : ℚ) (hops : List (List PathHop)) (choice : List PathHop) : Prop where
  timed : TimedChoice hops choice
  spans : Spans window choice
  least : ∀ other width, TimedChoice hops other → Spans width other → Spans width choice

/-- A tightest choice, and behind it the first payment of each edge without times. -/
def Selected (window : ℚ) (hops : List (List PathHop)) (selected : List PathHop) : Prop :=
  ∃ choice firsts, selected = choice ++ firsts ∧ Tightest window hops choice ∧
    List.Forall₂ (fun payments hop => payments.head? = some hop) (untimedEdges hops) firsts

variable {hops : List (List PathHop)} {payments choice selected : List PathHop} {hop : PathHop}
  {start width window : ℚ} {graph : PaymentGraph} {cycle : List String}

theorem withTs_eq_nil : withTs payments = [] ↔ ¬ HasTime payments := by
  rw [List.eq_nil_iff_forall_not_mem]
  constructor
  · rintro h ⟨hop, hmem, htime⟩
    obtain ⟨t, ht⟩ := Option.isSome_iff_exists.mp htime
    exact h (t, hop) (mem_withTs.mpr ⟨hmem, ht⟩)
  · rintro h ⟨t, hop⟩ hmem
    obtain ⟨hmem, ht⟩ := mem_withTs.mp hmem
    exact h ⟨hop, hmem, ht ▸ rfl⟩

theorem timedHops_eq (hops : List (List PathHop)) :
    timedHops hops = (timedEdges hops).map withTs := by
  rw [timedHops, timedEdges, List.filter_map]
  congr 1
  refine List.filter_congr fun payments _ => ?_
  simp only [Function.comp_apply, ne_eq, withTs_eq_nil, not_not]

theorem untimedPicks_eq (hops : List (List PathHop)) :
    untimedPicks hops = (untimedEdges hops).filterMap List.head? := by
  simp only [untimedPicks, untimedEdges, withTs_eq_nil]

theorem timedHops_eq_nil : timedHops hops = [] ↔ timedEdges hops = [] := by
  rw [timedHops_eq, List.map_eq_nil_iff]

theorem TimedChoice.exists_mem (h : TimedChoice hops choice) (hmem : payments ∈ timedEdges hops) :
    ∃ hop ∈ choice, hop ∈ payments ∧ hop.timestamp.isSome := by
  rw [TimedChoice] at h
  generalize timedEdges hops = edges at h hmem
  induction h with
  | nil => cases hmem
  | cons hhead _ ih =>
    rcases List.mem_cons.mp hmem with rfl | hmem
    · exact ⟨_, List.mem_cons_self, hhead⟩
    · obtain ⟨hop, hin, hhop⟩ := ih hmem
      exact ⟨hop, List.mem_cons_of_mem _ hin, hhop⟩

theorem TimedChoice.covers (h : TimedChoice hops choice) (hspans : Spans width choice)
    (hne : timedHops hops ≠ []) : ∃ start, Covers (times hops) start width := by
  have hmem (payments : List PathHop) (hp : payments ∈ timedEdges hops) :
      ∃ t ∈ choice.filterMap PathHop.timestamp, t ∈ (withTs payments).map Prod.fst := by
    obtain ⟨hop, hin, hhop, htime⟩ := h.exists_mem hp
    obtain ⟨t, ht⟩ := Option.isSome_iff_exists.mp htime
    exact ⟨t, List.mem_filterMap.mpr ⟨hop, hin, ht⟩,
      List.mem_map_of_mem (mem_withTs.mpr ⟨hhop, ht⟩)⟩
  cases hmin : (choice.filterMap PathHop.timestamp).min? with
  | none =>
    obtain ⟨payments, hp⟩ := List.exists_mem_of_ne_nil _ (mt timedHops_eq_nil.mpr hne)
    obtain ⟨t, ht, -⟩ := hmem payments hp
    rw [List.min?_eq_none_iff.mp hmin] at ht
    cases ht
  | some start =>
    refine ⟨start, fun l hl => ?_⟩
    rw [times, timedHops_eq, List.map_map] at hl
    obtain ⟨payments, hp, rfl⟩ := List.mem_map.mp hl
    obtain ⟨t, ht, hin⟩ := hmem payments hp
    refine ⟨t, hin, (List.le_min?_iff hmin).mp le_rfl t ht, ?_⟩
    have := hspans start (List.min?_mem hmin) t ht
    linarith

theorem forall₂_filterMap_range {α β : Type*} {R : α → β → Prop} {l : List α} {f : ℕ → Option β}
    (h : ∀ i (hi : i < l.length), ∃ b, f i = some b ∧ R l[i] b) :
    List.Forall₂ R l ((List.range l.length).filterMap f) := by
  induction l generalizing f with
  | nil => exact .nil
  | cons a l ih =>
    obtain ⟨b, hb, hR⟩ := h 0 (Nat.zero_lt_succ _)
    rw [List.length_cons, List.range_succ_eq_map, List.filterMap_cons_some hb, List.filterMap_map]
    exact .cons hR (ih fun i hi => h (i + 1) (Nat.succ_lt_succ hi))

theorem timedChoice_of_chosen {places : ℕ → ℕ} (h : Chosen (times hops) start width places) :
    TimedChoice hops (chosenPayments (timedHops hops) places) ∧
      Spans width (chosenPayments (timedHops hops) places) := by
  constructor
  · have hpicked : List.Forall₂ (fun timed hop => ∃ t, (t, hop) ∈ timed) (timedHops hops)
        (chosenPayments (timedHops hops) places) := by
      refine forall₂_filterMap_range fun i hi => ?_
      obtain ⟨t, hentry, -⟩ := h i ((List.length_map _).symm ▸ hi)
      rw [entry, times, List.getElem?_map, List.getElem?_eq_getElem hi, Option.map_some,
        Option.bind_some, List.getElem?_map] at hentry
      obtain ⟨e, he, -⟩ := Option.map_eq_some_iff.mp hentry
      refine ⟨e.2, ?_, e.1, List.mem_of_getElem? he⟩
      rw [List.getElem?_eq_getElem hi, Option.bind_some, he]
      rfl
    rw [timedHops_eq, List.forall₂_map_left_iff, ← timedHops_eq] at hpicked
    refine hpicked.imp fun payments hop hpick => ?_
    obtain ⟨t, ht⟩ := hpick
    obtain ⟨hmem, htime⟩ := mem_withTs.mp ht
    exact ⟨hmem, htime ▸ rfl⟩
  · have hrange (t : ℚ) (ht : t ∈ (chosenPayments (timedHops hops) places).filterMap
        PathHop.timestamp) : start ≤ t ∧ t ≤ start + width := by
      obtain ⟨hop, hhop, ht⟩ := List.mem_filterMap.mp ht
      obtain ⟨payments, hmem, -, hpick⟩ := (mem_chosenPayments h).mp hhop
      exact pick_time h.covers hmem hpick ht
    intro first hfirst last hlast
    have hfrom := (hrange first hfirst).1
    have hto := (hrange last hlast).2
    linarith

theorem firsts_untimedPicks (hpayments : ∀ p ∈ hops, p ≠ []) :
    List.Forall₂ (fun payments hop => payments.head? = some hop) (untimedEdges hops)
      (untimedPicks hops) := by
  rw [untimedPicks_eq]
  have hne : ∀ p ∈ untimedEdges hops, p ≠ [] := fun p hp => hpayments p (List.mem_filter.mp hp).1
  generalize untimedEdges hops = edges at hne
  induction edges with
  | nil => exact .nil
  | cons payments edges ih =>
    obtain ⟨hhead, hrest⟩ := List.forall_mem_cons.mp hne
    obtain ⟨hop, rest, rfl⟩ := List.exists_cons_of_ne_nil hhead
    exact .cons rfl (ih hrest)

/-- Where every edge has payments the selection is a tightest one, or there is none. -/
theorem select_spec (hhops : cycleHops graph cycle = some hops) (window : ℚ) :
    (selectTimedCycleEdges graph cycle window = none →
      ∀ choice, TimedChoice hops choice → ¬ Spans window choice) ∧
    ∀ selected, selectTimedCycleEdges graph cycle window = some selected →
      Selected window hops selected := by
  have hfirsts := firsts_untimedPicks (cycleHops_eq_some.mp hhops).2
  by_cases htimed : timedHops hops = []
  · have hselect : selectTimedCycleEdges graph cycle window = some (untimedPicks hops) := by
      rw [selectTimedCycleEdges, hhops]
      exact if_pos htimed
    have hnone : timedEdges hops = [] := timedHops_eq_nil.mp htimed
    rw [hselect]
    refine ⟨fun h => absurd h (Option.some_ne_none _), fun selected hselected => ?_⟩
    obtain rfl := Option.some.inj hselected
    refine ⟨[], _, rfl, ⟨?_, fun _ h => absurd h List.not_mem_nil,
      fun _ _ _ _ _ h => absurd h List.not_mem_nil⟩, hfirsts⟩
    rw [TimedChoice, hnone]
    exact .nil
  · obtain ⟨final, start, width, hsweep, hrange, hchosen, hsmallest⟩ := sweep_smallest
      (times_ascending hops) (times_nonempty hops) (fun h => htimed (times_eq_nil.mp h))
    have hselect : selectTimedCycleEdges graph cycle window = if window < width then none
        else some (chosenPayments (timedHops hops) final.bestChoice ++ untimedPicks hops) := by
      rw [times] at hsweep
      rw [selectTimedCycleEdges, hhops]
      simp only [if_neg htimed, hsweep, hrange]
    have hleast {other : List PathHop} {width' : ℚ} (hother : TimedChoice hops other)
        (hspans : Spans width' other) : width ≤ width' := by
      obtain ⟨start', hcovers⟩ := hother.covers hspans htimed
      exact hsmallest.shortest start' width' hcovers
    obtain ⟨hchoice, hspans⟩ := timedChoice_of_chosen hchosen
    rw [hselect]
    constructor
    · intro hnone other hother hwindow
      rw [if_neg (not_lt.mpr (hleast hother hwindow))] at hnone
      cases hnone
    · intro selected hselected
      split_ifs at hselected with hlate
      obtain rfl := Option.some.inj hselected
      refine ⟨_, _, rfl, ⟨hchoice, ?_, ?_⟩, hfirsts⟩
      · exact fun first hfirst last hlast =>
          (hspans first hfirst last hlast).trans (not_lt.mp hlate)
      · intro other width' hother hother'
        exact fun first hfirst last hlast =>
          (hspans first hfirst last hlast).trans (hleast hother hother')

/-- Nothing is returned exactly where an edge of the cycle has no payments or no choice of one
timestamped payment for each edge that has some spans at most the window. Otherwise a choice of the
least span is returned, with the first payments of the edges without times behind it. -/
theorem select_tightest (graph : PaymentGraph) (cycle : List String) (window : ℚ) :
    (selectTimedCycleEdges graph cycle window = none ↔
      (∃ e ∈ cycleEdges cycle, graph.payments e = []) ∨
        ∀ choice, TimedChoice (hopsOf graph cycle) choice → ¬ Spans window choice) ∧
    ∀ selected, selectTimedCycleEdges graph cycle window = some selected →
      Selected window (hopsOf graph cycle) selected := by
  cases hhops : cycleHops graph cycle with
  | none =>
    have hselect : selectTimedCycleEdges graph cycle window = none := by
      rw [selectTimedCycleEdges, hhops]
    have hmissing : ∃ e ∈ cycleEdges cycle, graph.payments e = [] := by
      by_contra hall
      push Not at hall
      have hsome : cycleHops graph cycle = some (hopsOf graph cycle) := by
        refine cycleHops_eq_some.mpr ⟨rfl, fun p hp => ?_⟩
        obtain ⟨e, he, rfl⟩ := List.mem_map.mp hp
        exact hall e he
      rw [hhops] at hsome
      cases hsome
    rw [hselect]
    refine ⟨iff_of_true rfl (.inl hmissing), fun selected h => ?_⟩
    cases h
  | some hops =>
    obtain ⟨rfl, hpayments⟩ := cycleHops_eq_some.mp hhops
    obtain ⟨hnone, hsome⟩ := select_spec hhops window
    refine ⟨⟨fun h => .inr (hnone h), ?_⟩, hsome⟩
    rintro (⟨e, he, hempty⟩ | hlong)
    · exact absurd hempty (hpayments _ (List.mem_map_of_mem he))
    · cases hselected : selectTimedCycleEdges graph cycle window with
      | none => rfl
      | some selected =>
        obtain ⟨choice, -, -, htightest, -⟩ := hsome selected hselected
        exact absurd htightest.spans (hlong choice htightest.timed)

def timedHop : PathHop := ⟨1, "XLM", "USDC", some 0, none⟩

def emptyEdge : PaymentGraph :=
  (PaymentGraph.empty.setEdge "A" "B" ⟨1, 1, [timedHop]⟩).setEdge "B" "A" ⟨0, 0, []⟩

/-- The one payment with a time is a choice of span zero. -/
theorem emptyEdge_refused : selectTimedCycleEdges emptyEdge ["A", "B"] 60 = none ∧
    ∃ choice, TimedChoice (hopsOf emptyEdge ["A", "B"]) choice ∧ Spans 60 choice := by
  refine ⟨by decide +kernel, [timedHop], ?_, ?_⟩
  · have hedges : timedEdges (hopsOf emptyEdge ["A", "B"]) = [[timedHop]] := by decide +kernel
    rw [TimedChoice, hedges]
    exact .cons ⟨List.mem_singleton_self _, rfl⟩ .nil
  · rw [Spans]
    decide +kernel

end TimedSelection
