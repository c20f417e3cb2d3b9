import LedgerLens.PathCycleDetector

/-!
# Which path-payment cycles are reported

For each cycle the search takes the payments of its tightest run, and only then looks at their
amounts. A cycle over the same accounts as one that was reported counts as seen.
-/
namespace PathCycleCompleteness

open PathCycleDetector SimpleCycles SmallestRange StrongComponents

variable {hops hops' : List (List PathHop)} {start width t : ℚ} {hop : PathHop}
  {query : Query} {graph : PaymentGraph} {cycle : List String}

def times (hops : List (List PathHop)) : List (List ℚ) := (timedHops hops).map (·.map Prod.fst)

/-- The payment of a hop for a run from `start`: the first at or after it, and on a hop where no
payment has a time just the first. -/
def pick (start : ℚ) (payments : List PathHop) : Option PathHop :=
  if withTs payments = [] then payments.head?
  else ((withTs payments).find? (start ≤ ·.1)).map Prod.snd

/-- Of the shortest runs the first lasts no longer than the window, and its payments are all large
enough. -/
def TightestFits (query : Query) (hops : List (List PathHop)) : Prop :=
  ∃ start, (timedHops hops ≠ [] →
    ∃ width ≤ query.maxTimeWindow, Smallest (times hops) start width) ∧
    ∀ payments ∈ hops, ∃ hop ∈ pick start payments, query.minCycleXlm ≤ hop.amountXlm

theorem mem_withTs {payments : List PathHop} :
    (t, hop) ∈ withTs payments ↔ hop ∈ payments ∧ hop.timestamp = some t := by
  rw [withTs, List.mem_insertionSort, List.mem_filterMap]
  constructor
  · rintro ⟨a, ha, hmap⟩
    obtain ⟨u, hu, heq⟩ := Option.map_eq_some_iff.mp hmap
    obtain ⟨rfl, rfl⟩ := Prod.mk.inj heq
    exact ⟨ha, hu⟩
  · rintro ⟨hmem, ht⟩
    exact ⟨hop, hmem, by rw [ht]; rfl⟩

theorem withTs_pairwise (payments : List PathHop) :
    ((withTs payments).map Prod.fst).Pairwise (· ≤ ·) :=
  List.pairwise_map.mpr (List.pairwise_insertionSort _ _)

theorem mem_timedHops {timed : List (ℚ × PathHop)} :
    timed ∈ timedHops hops ↔ ∃ payments ∈ hops, withTs payments = timed ∧ timed ≠ [] := by
  rw [timedHops, List.mem_filter, List.mem_map, decide_eq_true_iff]
  exact ⟨fun ⟨⟨p, hp, heq⟩, hne⟩ => ⟨p, hp, heq, hne⟩, fun ⟨p, hp, heq, hne⟩ => ⟨⟨p, hp, heq⟩, hne⟩⟩

theorem times_ascending (hops : List (List PathHop)) : Ascending (times hops) := by
  intro l hl
  obtain ⟨timed, htimed, rfl⟩ := List.mem_map.mp hl
  obtain ⟨payments, -, rfl, -⟩ := mem_timedHops.mp htimed
  exact withTs_pairwise payments

theorem times_nonempty (hops : List (List PathHop)) : ∀ l ∈ times hops, l ≠ [] := by
  intro l hl
  obtain ⟨timed, htimed, rfl⟩ := List.mem_map.mp hl
  obtain ⟨payments, -, -, hne⟩ := mem_timedHops.mp htimed
  exact fun hnil => hne (List.map_eq_nil_iff.mp hnil)

theorem times_eq_nil : times hops = [] ↔ timedHops hops = [] := List.map_eq_nil_iff

theorem TightestFits.congr (hmem : ∀ p, p ∈ hops ↔ p ∈ hops') (h : TightestFits query hops) :
    TightestFits query hops' := by
  have htimed (l : List (ℚ × PathHop)) : l ∈ timedHops hops ↔ l ∈ timedHops hops' := by
    simp only [mem_timedHops, hmem]
  have htimes (l : List ℚ) : l ∈ times hops ↔ l ∈ times hops' := by
    simp only [times, List.mem_map, htimed]
  obtain ⟨start, hwidth, hpicks⟩ := h
  refine ⟨start, fun hne => ?_, fun p hp => hpicks p ((hmem p).mpr hp)⟩
  obtain ⟨l, hl⟩ := List.exists_mem_of_ne_nil _ hne
  obtain ⟨width, hle, hsmallest⟩ := hwidth (List.ne_nil_of_mem ((htimed l).mpr hl))
  exact ⟨width, hle, hsmallest.congr htimes⟩

theorem mem_chosenPayments {choice : ℕ → ℕ} (h : Chosen (times hops) start width choice) :
    hop ∈ chosenPayments (timedHops hops) choice ↔
      ∃ payments ∈ hops, withTs payments ≠ [] ∧ hop ∈ pick start payments := by
  have hlength : (times hops).length = (timedHops hops).length := List.length_map _
  have hfind (i : ℕ) (hi : i < (timedHops hops).length) : (timedHops hops)[i][choice i]? =
      (timedHops hops)[i].find? (start ≤ ·.1) := by
    obtain ⟨t, hentry, hfrom, -, hbefore⟩ := h i (hlength.symm ▸ hi)
    have hlist : (times hops)[i]? = some ((timedHops hops)[i].map Prod.fst) := by
      rw [times, List.getElem?_map, List.getElem?_eq_getElem hi]
      rfl
    have hat (k : ℕ) : entry (times hops) i k = ((timedHops hops)[i][k]?).map Prod.fst := by
      rw [entry, hlist, Option.bind_some, List.getElem?_map]
    rw [hat] at hentry
    obtain ⟨e, he, rfl⟩ := Option.map_eq_some_iff.mp hentry
    obtain ⟨hk, hke⟩ := List.getElem?_eq_some_iff.mp he
    rw [he, eq_comm, List.find?_eq_some_iff_getElem]
    refine ⟨decide_eq_true hfrom, choice i, hk, hke, fun j hj => ?_⟩
    have := hbefore j hj _ ((hat j).trans (by rw [List.getElem?_eq_getElem (hj.trans hk)]; rfl))
    simpa using this
  rw [chosenPayments, List.mem_filterMap]
  constructor
  · rintro ⟨i, hi, hhop⟩
    rw [List.mem_range] at hi
    rw [List.getElem?_eq_getElem hi, Option.bind_some, hfind i hi] at hhop
    obtain ⟨payments, hmem, heq, hne⟩ := mem_timedHops.mp (List.getElem_mem hi)
    refine ⟨payments, hmem, heq ▸ hne, ?_⟩
    rw [pick, if_neg (heq ▸ hne), heq]
    exact hhop
  · rintro ⟨payments, hmem, hne, hhop⟩
    obtain ⟨i, hi, heq⟩ := List.getElem_of_mem (mem_timedHops.mpr ⟨payments, hmem, rfl, hne⟩)
    refine ⟨i, List.mem_range.mpr hi, ?_⟩
    rw [List.getElem?_eq_getElem hi, Option.bind_some, hfind i hi, heq]
    rwa [pick, if_neg hne] at hhop

theorem mem_untimedPicks (start : ℚ) : hop ∈ untimedPicks hops ↔
    ∃ payments ∈ hops, withTs payments = [] ∧ hop ∈ pick start payments := by
  rw [untimedPicks, List.mem_filterMap]
  constructor
  · rintro ⟨payments, hmem, hhop⟩
    obtain ⟨hmem, huntimed⟩ := List.mem_filter.mp hmem
    have huntimed := of_decide_eq_true huntimed
    exact ⟨payments, hmem, huntimed, by rwa [pick, if_pos huntimed]⟩
  · rintro ⟨payments, hmem, huntimed, hhop⟩
    rw [pick, if_pos huntimed] at hhop
    exact ⟨payments, List.mem_filter.mpr ⟨hmem, decide_eq_true huntimed⟩, hhop⟩

theorem mem_of_mem_pick {payments : List PathHop} (h : hop ∈ pick start payments) :
    hop ∈ payments := by
  rw [pick] at h
  split_ifs at h
  · exact List.mem_of_head? h
  · obtain ⟨e, hfind, rfl⟩ := Option.map_eq_some_iff.mp h
    exact (mem_withTs.mp (List.mem_of_find?_eq_some hfind)).1

theorem exists_pick (hcovers : Covers (times hops) start width) {payments : List PathHop}
    (hmem : payments ∈ hops) (hne : payments ≠ []) : ∃ hop, hop ∈ pick start payments := by
  rw [pick]
  split_ifs with htimed
  · exact Option.ne_none_iff_exists'.mp fun hnone => hne (List.head?_eq_none_iff.mp hnone)
  · have hlist : (withTs payments).map Prod.fst ∈ times hops :=
      List.mem_map_of_mem (mem_timedHops.mpr ⟨payments, hmem, rfl, htimed⟩)
    obtain ⟨t, ht, hfrom, -⟩ := hcovers _ hlist
    obtain ⟨e, he, rfl⟩ := List.mem_map.mp ht
    cases hfind : (withTs payments).find? (start ≤ ·.1) with
    | none =>
      have := List.find?_eq_none.mp hfind e he
      exact absurd (decide_eq_true hfrom) this
    | some e => exact ⟨e.2, rfl⟩

theorem pick_time (hcovers : Covers (times hops) start width) {payments : List PathHop}
    (hmem : payments ∈ hops) (hpick : hop ∈ pick start payments) (ht : hop.timestamp = some t) :
    start ≤ t ∧ t ≤ start + width := by
  rw [pick] at hpick
  split_ifs at hpick with htimed
  · have hin := mem_withTs.mpr ⟨List.mem_of_head? hpick, ht⟩
    rw [htimed] at hin
    cases hin
  · obtain ⟨⟨u, first⟩, hfind, rfl⟩ := Option.map_eq_some_iff.mp hpick
    obtain ⟨hfrom, k, hk, hke, hbefore⟩ := List.find?_eq_some_iff_getElem.mp hfind
    have hu := mem_withTs.mp (List.mem_of_find?_eq_some hfind)
    obtain rfl : u = t := Option.some.inj (hu.2.symm.trans ht)
    refine ⟨of_decide_eq_true hfrom, ?_⟩
    have hlist : (withTs payments).map Prod.fst ∈ times hops :=
      List.mem_map_of_mem (mem_timedHops.mpr ⟨payments, hmem, rfl, htimed⟩)
    obtain ⟨v, hv, hvfrom, hvto⟩ := hcovers _ hlist
    obtain ⟨e, he, rfl⟩ := List.mem_map.mp hv
    obtain ⟨m, hm, rfl⟩ := List.getElem_of_mem he
    have hkm : k ≤ m := by
      by_contra hlt
      have := hbefore m (not_le.mp hlt)
      simp only [Bool.not_eq_eq_eq_not, Bool.not_true, decide_eq_false_iff_not] at this
      exact this hvfrom
    rcases Nat.lt_or_eq_of_le hkm with hlt | rfl
    · have hsorted := List.pairwise_iff_getElem.mp (List.pairwise_insertionSort
        (fun a b : ℚ × PathHop => a.1 ≤ b.1) _) k m hk hm hlt
      have hle : u ≤ (withTs payments)[m].1 := by
        rw [show u = (withTs payments)[k].1 by rw [hke]]
        exact hsorted
      exact hle.trans hvto
    · rw [hke] at hvto
      exact hvto

def hopsOf (graph : PaymentGraph) (cycle : List String) : List (List PathHop) :=
  (cycleEdges cycle).map graph.payments

theorem cycleHops_eq_some :
    cycleHops graph cycle = some hops ↔ hops = hopsOf graph cycle ∧ ∀ p ∈ hops, p ≠ [] := by
  rw [cycleHops, hopsOf]
  generalize cycleEdges cycle = edges
  induction edges generalizing hops with
  | nil =>
    rw [List.mapM_nil, List.map_nil]
    constructor
    · intro h
      obtain rfl := Option.some.inj h
      exact ⟨rfl, fun _ h => absurd h List.not_mem_nil⟩
    · rintro ⟨rfl, -⟩
      rfl
  | cons e edges ih =>
    rw [List.mapM_cons, List.map_cons]
    cases hedge : graph.edge e with
    | none =>
      have hnone : graph.payments e = [] := by
        rw [PaymentGraph.payments, hedge]
        rfl
      refine iff_of_false (Option.some_ne_none hops).symm ?_
      rintro ⟨rfl, hne⟩
      exact hne _ List.mem_cons_self hnone
    | some edge =>
      have hpayments : graph.payments e = edge.pathPayments := by
        rw [PaymentGraph.payments, hedge]
        rfl
      rw [hpayments]
      simp only [bind, Option.bind_eq_some_iff, pure, Option.some.injEq]
      constructor
      · rintro ⟨p, hp, rest, hrest, rfl⟩
        split_ifs at hp with hempty
        obtain rfl := Option.some.inj hp
        obtain ⟨rfl, hne⟩ := ih.mp hrest
        exact ⟨rfl, List.forall_mem_cons.mpr ⟨hempty, hne⟩⟩
      · rintro ⟨rfl, hne⟩
        obtain ⟨hempty, hne⟩ := List.forall_mem_cons.mp hne
        exact ⟨_, if_neg hempty, _, ih.mpr ⟨rfl, hne⟩, rfl⟩

theorem le_min_getD {l : List ℚ} (hne : l ≠ []) {floor : ℚ} :
    ¬ l.min?.getD 0 < floor ↔ ∀ a ∈ l, floor ≤ a := by
  cases hmin : l.min? with
  | none => exact absurd (List.min?_eq_none_iff.mp hmin) hne
  | some m => rw [Option.getD_some, not_lt, List.le_min?_iff hmin]

theorem pick_congr {start' : ℚ} (heq : timedHops hops ≠ [] → start' = start)
    {payments : List PathHop} (hmem : payments ∈ hops) :
    pick start' payments = pick start payments := by
  by_cases huntimed : withTs payments = []
  · rw [pick, pick, if_pos huntimed, if_pos huntimed]
  · rw [heq (List.ne_nil_of_mem (mem_timedHops.mpr ⟨payments, hmem, rfl, huntimed⟩))]

/-- The tightest run from `start`, whose length is left to the window. -/
structure Selection (graph : PaymentGraph) (cycle : List String) (window start : ℚ)
    (hops : List (List PathHop)) : Prop where
  smallest : timedHops hops ≠ [] → ∃ width, Smallest (times hops) start width
  isSome_iff : (selectTimedCycleEdges graph cycle window).isSome ↔
    (timedHops hops ≠ [] → ∃ width ≤ window, Smallest (times hops) start width)
  exists_pick : ∀ p ∈ hops, ∃ hop, hop ∈ pick start p
  mem_iff : ∀ selected, selectTimedCycleEdges graph cycle window = some selected →
    ∀ hop, hop ∈ selected ↔ ∃ p ∈ hops, hop ∈ pick start p

theorem exists_selection (hhops : cycleHops graph cycle = some hops) (window : ℚ) :
    ∃ start, Selection graph cycle window start hops := by
  have hpayments := (cycleHops_eq_some.mp hhops).2
  by_cases htimed : timedHops hops = []
  · have huntimed (p : List PathHop) (hp : p ∈ hops) : withTs p = [] := by
      by_contra hne
      have := mem_timedHops.mpr ⟨p, hp, rfl, hne⟩
      rw [htimed] at this
      cases this
    have hcovers : Covers (times hops) 0 0 := by
      rw [times_eq_nil.mpr htimed]
      exact fun l hl => absurd hl List.not_mem_nil
    have hselect : selectTimedCycleEdges graph cycle window = some (untimedPicks hops) := by
      rw [selectTimedCycleEdges, hhops]
      exact if_pos htimed
    refine ⟨0, fun h => absurd htimed h, ?_, fun p hp =>
      exists_pick hcovers hp (hpayments p hp), ?_⟩
    · rw [hselect]
      exact iff_of_true rfl fun h => absurd htimed h
    · intro selected hselected hop
      obtain rfl := Option.some.inj (hselect.symm.trans hselected)
      rw [mem_untimedPicks 0]
      constructor
      · rintro ⟨p, hp, -, hpick⟩
        exact ⟨p, hp, hpick⟩
      · rintro ⟨p, hp, hpick⟩
        exact ⟨p, hp, huntimed p hp, hpick⟩
  · obtain ⟨final, start, width, hsweep, hrange, hchosen, hsmallest⟩ := sweep_smallest
      (times_ascending hops) (times_nonempty hops) (fun h => htimed (times_eq_nil.mp h))
    have hselect : selectTimedCycleEdges graph cycle window = if window < width then none
        else some (chosenPayments (timedHops hops) final.bestChoice ++ untimedPicks hops) := by
      rw [times] at hsweep
      rw [selectTimedCycleEdges, hhops]
      simp only [if_neg htimed, hsweep, hrange]
    refine ⟨start, fun _ => ⟨width, hsmallest⟩, ?_,
      fun p hp => exists_pick hsmallest.covers hp (hpayments p hp), ?_⟩
    · rw [hselect]
      split_ifs with hlate
      · refine iff_of_false Bool.false_ne_true fun h => ?_
        obtain ⟨width', hle, hsmallest'⟩ := h htimed
        obtain rfl := (hsmallest.unique hsmallest').2
        exact absurd hlate (not_lt.mpr hle)
      · exact iff_of_true rfl fun _ => ⟨width, not_lt.mp hlate, hsmallest⟩
    · intro selected hselected hop
      rw [hselect] at hselected
      split_ifs at hselected
      obtain rfl := Option.some.inj hselected
      rw [List.mem_append, mem_chosenPayments hchosen, mem_untimedPicks start]
      constructor
      · rintro (⟨p, hp, -, hpick⟩ | ⟨p, hp, -, hpick⟩) <;> exact ⟨p, hp, hpick⟩
      · rintro ⟨p, hp, hpick⟩
        by_cases huntimed : withTs p = []
        · exact .inr ⟨p, hp, huntimed, hpick⟩
        · exact .inl ⟨p, hp, huntimed, hpick⟩

theorem Selection.tightestFits_iff {hops : List (List PathHop)}
    (h : Selection graph cycle query.maxTimeWindow start hops) : TightestFits query hops ↔
      (selectTimedCycleEdges graph cycle query.maxTimeWindow).isSome ∧
        ∀ p ∈ hops, ∃ hop ∈ pick start p, query.minCycleXlm ≤ hop.amountXlm := by
  rw [h.isSome_iff]
  constructor
  · rintro ⟨start', hwindow, hpicks⟩
    have heq (htimed : timedHops hops ≠ []) : start' = start := by
      obtain ⟨width, hsmallest⟩ := h.smallest htimed
      obtain ⟨width', -, hsmallest'⟩ := hwindow htimed
      exact (hsmallest'.unique hsmallest).1
    exact ⟨fun htimed => heq htimed ▸ hwindow htimed, fun p hp => pick_congr heq hp ▸ hpicks p hp⟩
  · exact fun ⟨hwindow, hpicks⟩ => ⟨start, hwindow, hpicks⟩

theorem Selection.amounts_iff (h : Selection graph cycle query.maxTimeWindow start hops)
    (hne : hops ≠ []) {selected : List PathHop}
    (hselected : selectTimedCycleEdges graph cycle query.maxTimeWindow = some selected)
    {floor : ℚ} : ¬ (selected.map PathHop.amountXlm).min?.getD 0 < floor ↔
      ∀ p ∈ hops, ∃ hop ∈ pick start p, floor ≤ hop.amountXlm := by
  have hmem := h.mem_iff selected hselected
  have hsome : selected.map PathHop.amountXlm ≠ [] := by
    obtain ⟨p, hp⟩ := List.exists_mem_of_ne_nil hops hne
    obtain ⟨hop, hpick⟩ := h.exists_pick p hp
    exact List.ne_nil_of_mem (List.mem_map_of_mem ((hmem hop).mpr ⟨p, hp, hpick⟩))
  rw [le_min_getD hsome]
  constructor
  · intro hall p hp
    obtain ⟨hop, hpick⟩ := h.exists_pick p hp
    exact ⟨hop, hpick, hall _ (List.mem_map_of_mem ((hmem hop).mpr ⟨p, hp, hpick⟩))⟩
  · intro hall a ha
    obtain ⟨hop, hin, rfl⟩ := List.mem_map.mp ha
    obtain ⟨p, hp, hpick⟩ := (hmem hop).mp hin
    obtain ⟨hop', hpick', hle⟩ := hall p hp
    obtain rfl := Option.some.inj (hpick'.symm.trans hpick)
    exact hle

theorem hopsOf_ne_nil (hne : cycle ≠ []) : hopsOf graph cycle ≠ [] := by
  rw [← List.length_pos_iff, hopsOf, List.length_map, length_cycleEdges]
  exact List.length_pos_iff.mpr hne

theorem exists_examine : (∃ row, examine query graph cycle = some row) ↔
    2 ≤ cycle.length ∧ query.Touches cycle ∧ TightestFits query (hopsOf graph cycle) := by
  by_cases hskip : cycle.length < 2 ∨ ¬ query.Touches cycle
  · rw [examine, if_pos hskip]
    refine iff_of_false (fun ⟨_, h⟩ => nomatch h) fun ⟨htwo, htouch, _⟩ => ?_
    exact hskip.elim (fun h => absurd htwo (not_le.mpr h)) fun h => h htouch
  · obtain ⟨htwo, htouch⟩ := not_or.mp hskip
    rw [examine, if_neg hskip, and_iff_right (not_lt.mp htwo), and_iff_right (not_not.mp htouch)]
    have hne : hopsOf graph cycle ≠ [] := hopsOf_ne_nil (by rintro rfl; exact htwo Nat.two_pos)
    cases hhops : cycleHops graph cycle with
    | none =>
      have hselect : selectTimedCycleEdges graph cycle query.maxTimeWindow = none := by
        simp only [selectTimedCycleEdges, hhops]
      rw [hselect]
      refine iff_of_false (fun ⟨_, h⟩ => nomatch h) fun ⟨start, _, hpicks⟩ => ?_
      have hpayments : ∀ p ∈ hopsOf graph cycle, p ≠ [] := by
        rintro p hp rfl
        obtain ⟨hop, hpick, -⟩ := hpicks [] hp
        cases hpick
      rw [cycleHops_eq_some.mpr ⟨rfl, hpayments⟩] at hhops
      cases hhops
    | some hops =>
      obtain ⟨rfl, -⟩ := cycleHops_eq_some.mp hhops
      obtain ⟨start, h⟩ := exists_selection hhops query.maxTimeWindow
      rw [h.tightestFits_iff]
      cases hselected : selectTimedCycleEdges graph cycle query.maxTimeWindow with
      | none => exact iff_of_false (fun ⟨_, h⟩ => nomatch h) fun h => Bool.false_ne_true h.1
      | some selected =>
        rw [← h.amounts_iff hne hselected, Option.isSome_some, and_iff_right rfl]
        by_cases hsmall : (selected.map PathHop.amountXlm).min?.getD 0 < query.minCycleXlm
        · exact iff_of_false (fun ⟨_, h⟩ => by simp only [if_pos hsmall, reduceCtorEq] at h)
            fun h => h hsmall
        · exact iff_of_true ⟨_, if_neg hsmall⟩ hsmall

theorem accounts_of_examine {row : PathCycle} (h : examine query graph cycle = some row) :
    row.accounts = cycle := by
  rw [examine] at h
  split_ifs at h
  split at h
  · cases h
  · simp only at h
    split_ifs at h
    obtain rfl := Option.some.inj h
    rfl

variable {nx : Networkx} {clock : ℕ → ℚ} {s : Search} {examined : List (PaymentGraph × List String)}

structure Tracked (query : Query) (examined : List (PaymentGraph × List String)) (s : Search) :
    Prop where
  seen_iff : ∀ accounts n, (accounts, n) ∈ s.seen ↔
    ∃ row ∈ s.cycles, row.accounts.toFinset = accounts ∧ row.accounts.length = n
  sound : ∀ row ∈ s.cycles, ∃ e ∈ examined, examine query e.1 e.2 = some row
  complete : ∀ e ∈ examined, ∀ row, examine query e.1 e.2 = some row →
    (row.accounts.toFinset, row.accounts.length) ∈ s.seen
  distinct : ∀ row ∈ s.cycles, ∀ row' ∈ s.cycles, row.accounts.toFinset = row'.accounts.toFinset →
    row.accounts.length = row'.accounts.length → row = row'

theorem Tracked.init (query : Query) : Tracked query [] .start where
  seen_iff _ _ := iff_of_false List.not_mem_nil fun ⟨_, h, _⟩ => absurd h List.not_mem_nil
  sound _ h := absurd h List.not_mem_nil
  complete _ h := absurd h List.not_mem_nil
  distinct _ h := absurd h List.not_mem_nil

theorem Tracked.look (h : Tracked query examined s) : Tracked query examined (s.look query) :=
  ⟨h.seen_iff, h.sound, h.complete, h.distinct⟩

theorem Tracked.visit (h : Tracked query examined s) :
    Tracked query (examined ++ [(graph, cycle)]) (s.visit query graph cycle) := by
  have hsound : ∀ row ∈ s.cycles, ∃ e ∈ examined ++ [(graph, cycle)],
      examine query e.1 e.2 = some row := by
    intro row hrow
    obtain ⟨e, he, hexamine⟩ := h.sound row hrow
    exact ⟨e, List.mem_append_left _ he, hexamine⟩
  rw [Search.visit]
  cases hexamine : examine query graph cycle with
  | none =>
    refine ⟨h.seen_iff, hsound, fun e he row hrow => ?_, h.distinct⟩
    rcases List.mem_append.mp he with he | he
    · exact h.complete e he row hrow
    · obtain rfl := List.mem_singleton.mp he
      rw [hexamine] at hrow
      cases hrow
  | some row =>
    obtain rfl := accounts_of_examine hexamine
    simp only
    split_ifs with hseen
    · refine ⟨h.seen_iff, hsound, fun e he row' hrow => ?_, h.distinct⟩
      rcases List.mem_append.mp he with he | he
      · exact h.complete e he row' hrow
      · obtain rfl := List.mem_singleton.mp he
        obtain rfl := Option.some.inj (hexamine.symm.trans hrow)
        exact hseen
    · have hfresh (row' : PathCycle) (hrow : row' ∈ s.cycles)
          (haccounts : row'.accounts.toFinset = row.accounts.toFinset)
          (hlength : row'.accounts.length = row.accounts.length) : False :=
        hseen ((h.seen_iff _ _).mpr ⟨row', hrow, haccounts, hlength⟩)
      constructor
      case seen_iff =>
        intro accounts n
        simp only [List.mem_cons, List.mem_append, List.not_mem_nil, or_false, h.seen_iff]
        constructor
        · rintro (heq | ⟨row', hrow, hcycle⟩)
          · obtain ⟨rfl, rfl⟩ := Prod.mk.inj heq
            exact ⟨row, .inr rfl, rfl, rfl⟩
          · exact ⟨row', .inl hrow, hcycle⟩
        · rintro ⟨row', hrow | rfl, haccounts, hlength⟩
          · exact .inr ⟨row', hrow, haccounts, hlength⟩
          · exact .inl (by rw [haccounts, hlength])
      case sound =>
        intro row' hrow
        rcases List.mem_append.mp hrow with hrow | hrow
        · exact hsound row' hrow
        · obtain rfl := List.mem_singleton.mp hrow
          exact ⟨(graph, row'.accounts), List.mem_append_right _ List.mem_cons_self, hexamine⟩
      case complete =>
        intro e he row' hrow
        rcases List.mem_append.mp he with he | he
        · exact List.mem_cons_of_mem _ (h.complete e he row' hrow)
        · obtain rfl := List.mem_singleton.mp he
          obtain rfl := Option.some.inj (hexamine.symm.trans hrow)
          exact List.mem_cons_self
      case distinct =>
        intro row₁ hrow₁ row₂ hrow₂ haccounts hlength
        rcases List.mem_append.mp hrow₁ with hold₁ | hnew₁ <;>
          rcases List.mem_append.mp hrow₂ with hold₂ | hnew₂
        · exact h.distinct row₁ hold₁ row₂ hold₂ haccounts hlength
        · obtain rfl := List.mem_singleton.mp hnew₂
          exact (hfresh row₁ hold₁ haccounts hlength).elim
        · obtain rfl := List.mem_singleton.mp hnew₁
          exact (hfresh row₂ hold₂ haccounts.symm hlength.symm).elim
        · exact (List.mem_singleton.mp hnew₁).trans (List.mem_singleton.mp hnew₂).symm

theorem Tracked.searchCycles (h : Tracked query examined s) (cycles : List (List String))
    (hbudget : (searchCycles clock query graph cycles s).budgetExhausted = false) :
    Tracked query (examined ++ cycles.map (graph, ·))
        (searchCycles clock query graph cycles s) := by
  induction cycles generalizing s examined with
  | nil =>
    rw [List.map_nil, List.append_nil]
    exact h
  | cons cycle cycles ih =>
    rw [PathCycleDetector.searchCycles] at hbudget ⊢
    split_ifs at hbudget ⊢ with hout
    have htracked := ih h.look.visit hbudget
    rwa [List.append_assoc] at htracked

def listing (nx : Networkx) (query : Query) (graph : PaymentGraph)
    (components : List (List String)) : List (PaymentGraph × List String) :=
  (components.filter (¬ query.Skips ·)).flatMap fun component =>
    (nx.simpleCycles (graph.subgraph component) query.maxCycleLength.toNat).map
      (graph.subgraph component, ·)

theorem mem_listing {components : List (List String)} {e : PaymentGraph × List String} :
    e ∈ listing nx query graph components ↔ ∃ component ∈ components,
      ¬ query.Skips component ∧ e.1 = graph.subgraph component ∧
        e.2 ∈ nx.simpleCycles (graph.subgraph component) query.maxCycleLength.toNat := by
  rw [listing, List.mem_flatMap]
  constructor
  · rintro ⟨component, hcomponent, he⟩
    obtain ⟨hcomponent, henter⟩ := List.mem_filter.mp hcomponent
    obtain ⟨cycle, hcycle, rfl⟩ := List.mem_map.mp he
    exact ⟨component, hcomponent, of_decide_eq_true henter, rfl, hcycle⟩
  · rintro ⟨component, hcomponent, henter, hgraph, hcycle⟩
    refine ⟨component, List.mem_filter.mpr ⟨hcomponent, decide_eq_true henter⟩, ?_⟩
    exact List.mem_map.mpr ⟨e.2, hcycle, by rw [← hgraph]⟩

theorem Tracked.searchComponents (h : Tracked query examined s) (components : List (List String))
    (hbudget : (searchComponents nx clock query graph components s).budgetExhausted = false) :
    Tracked query (examined ++ listing nx query graph components)
      (searchComponents nx clock query graph components s) := by
  induction components generalizing s examined with
  | nil =>
    rw [listing, List.filter_nil, List.flatMap_nil, List.append_nil]
    exact h
  | cons component components ih =>
    rw [PathCycleDetector.searchComponents] at hbudget ⊢
    by_cases hout : s.outOfBudget query (· ≤ elapsed clock s)
    · rw [if_pos hout] at hbudget
      cases hbudget
    rw [if_neg hout] at hbudget ⊢
    by_cases hskip : query.Skips component
    · rw [if_pos hskip] at hbudget ⊢
      have hlisting : listing nx query graph (component :: components) =
          listing nx query graph components := by
        rw [listing, List.filter_cons_of_neg (by simpa using hskip), ← listing]
      rw [hlisting]
      exact ih h.look hbudget
    · rw [if_neg hskip] at hbudget ⊢
      simp only at hbudget ⊢
      have hlisting : listing nx query graph (component :: components) =
          (nx.simpleCycles (graph.subgraph component) query.maxCycleLength.toNat).map
            (graph.subgraph component, ·) ++ listing nx query graph components := by
        rw [listing, List.filter_cons_of_pos (by simpa using hskip), List.flatMap_cons, ← listing]
      split_ifs at hbudget ⊢ with hexhausted
      · rw [hexhausted] at hbudget
        cases hbudget
      · rw [hlisting, ← List.append_assoc]
        exact ih (h.look.searchCycles _ (Bool.eq_false_of_not_eq_true hexhausted)) hbudget

structure Sought (query : Query) (graph : PaymentGraph) (cycle : List String) : Prop where
  simple : SimpleCycle graph.Edge cycle
  long : 2 ≤ cycle.length
  short : (cycle.length : ℤ) ≤ query.maxCycleLength
  touches : query.Touches cycle

/-- Some choice of one payment for each edge lies in the window, with amounts that are large
enough. -/
def Qualifies (query : Query) (graph : PaymentGraph) (cycle : List String) : Prop :=
  ∃ choice : String × String → PathHop,
    (∀ e ∈ cycleEdges cycle, choice e ∈ graph.payments e) ∧
    (∀ e ∈ cycleEdges cycle, ∀ e' ∈ cycleEdges cycle, ∀ t ∈ (choice e).timestamp,
      ∀ t' ∈ (choice e').timestamp, t' - t ≤ query.maxTimeWindow) ∧
    ∀ e ∈ cycleEdges cycle, query.minCycleXlm ≤ (choice e).amountXlm

def Reported (found : List PathCycle) (cycle : List String) : Prop :=
  ∃ row ∈ found, row.accounts ~r cycle

/-- The search returned and none of its budgets cut it short: neither the time, nor the count of
cycles, nor the size of a component. -/
structure SearchedInFull (nx : Networkx) (clock : ℕ → ℚ) (query : Query) (graph : PaymentGraph)
    (found : List PathCycle) : Prop where
  returned : detectPathPaymentCycles nx clock query graph = .ok found
  budget : ∀ s, search nx clock query graph = .ok s → s.budgetExhausted = false
  sizes : ∀ component ∈ nx.stronglyConnectedComponents graph, query.Touches component →
    (component.length : ℤ) ≤ query.maxComponentSize

theorem qualifies_of_tightestFits (h : TightestFits query (hopsOf graph cycle)) :
    Qualifies query graph cycle := by
  obtain ⟨start, hwindow, hpicks⟩ := h
  have hhop (e : String × String) (he : e ∈ cycleEdges cycle) :
      graph.payments e ∈ hopsOf graph cycle := List.mem_map_of_mem he
  choose! choice hpick hfloor using fun e he => hpicks (graph.payments e) (hhop e he)
  refine ⟨choice, fun e he => mem_of_mem_pick (hpick e he), fun e he e' he' t ht t' ht' =>
    ?_, hfloor⟩
  have htimed : timedHops (hopsOf graph cycle) ≠ [] := by
    have hmem := mem_withTs.mpr ⟨mem_of_mem_pick (hpick e he), ht⟩
    exact List.ne_nil_of_mem (mem_timedHops.mpr ⟨_, hhop e he, rfl, List.ne_nil_of_mem hmem⟩)
  obtain ⟨width, hle, hsmallest⟩ := hwindow htimed
  have hfrom := (pick_time hsmallest.covers (hhop e he) (hpick e he) ht).1
  have hto := (pick_time hsmallest.covers (hhop e' he') (hpick e' he') ht').2
  linarith

theorem TightestFits.rotate {cycle' : List String} (h : TightestFits query (hopsOf graph cycle))
    (hrotated : cycle ~r cycle') : TightestFits query (hopsOf graph cycle') :=
  h.congr fun _ => ((cycleEdges_perm hrotated).map _).mem_iff

theorem hopsOf_subgraph {component : List String} (hin : ∀ v ∈ cycle, v ∈ component) :
    hopsOf (graph.subgraph component) cycle = hopsOf graph cycle := by
  refine List.map_congr_left fun e he => ?_
  obtain ⟨hfirst, hsecond⟩ := mem_of_mem_cycleEdges he
  exact PaymentGraph.payments_subgraph (hin _ hfirst) (hin _ hsecond)

theorem Sought.exists_listed (h : Sought query graph cycle)
    (hsizes : ∀ component ∈ nx.stronglyConnectedComponents graph, query.Touches component →
      (component.length : ℤ) ≤ query.maxComponentSize) :
    ∃ e ∈ listing nx query graph (nx.stronglyConnectedComponents graph),
      e.2 ~r cycle ∧ hopsOf e.1 e.2 = hopsOf graph e.2 := by
  have hne : cycle ≠ [] := List.length_pos_iff.mp (by have := h.long; omega)
  obtain ⟨first, hfirst⟩ := List.exists_mem_of_ne_nil cycle hne
  obtain ⟨next, hedge⟩ := h.simple.exists_edge hfirst
  obtain ⟨component, hcomponent, hmem⟩ := List.mem_flatten.mp
    (nx.every_node graph first (graph.ends (first, next) hedge).1)
  have hin : ∀ v ∈ cycle, v ∈ component := (nx.components graph).subset_of_mutual hcomponent hmem
    fun v hv => h.simple.mutual_of_mem hfirst hv
  have hlength : cycle.length ≤ component.length :=
    (List.subperm_of_subset h.simple.nodup hin).length_le
  have htouches : query.Touches component := by
    intro roots hroots
    obtain ⟨account, haccount, hroot⟩ := h.touches roots hroots
    exact ⟨account, hin account haccount, hroot⟩
  have henter : ¬ query.Skips component := by
    rintro (hshort | htouch | hlarge)
    · have := h.long
      omega
    · exact htouch htouches
    · exact absurd hlarge (not_lt.mpr (hsizes component hcomponent htouches))
  have hbound : cycle.length ≤ query.maxCycleLength.toNat := by
    have := h.short
    omega
  obtain ⟨listed, hlisted, hrotated⟩ := nx.cycles_complete (graph.subgraph component) _ cycle hne
    (PaymentGraph.simpleCycle_subgraph.mpr ⟨h.simple, hin⟩) hbound
  exact ⟨(graph.subgraph component, listed), mem_listing.mpr
    ⟨component, hcomponent, henter, rfl, hlisted⟩, hrotated,
    hopsOf_subgraph fun v hv => hin v (hrotated.perm.mem_iff.mp hv)⟩

theorem sought_of_examine {e : PaymentGraph × List String} {components : List (List String)}
    {row : PathCycle} (he : e ∈ listing nx query graph components)
    (hexamine : examine query e.1 e.2 = some row) :
    Sought query graph row.accounts ∧ TightestFits query (hopsOf graph row.accounts) := by
  obtain ⟨subgraph, cycle⟩ := e
  obtain ⟨component, -, -, hsubgraph, hcycle⟩ := mem_listing.mp he
  obtain rfl : subgraph = graph.subgraph component := hsubgraph
  obtain ⟨hne, hsimple, hlength⟩ := nx.cycles_sound _ _ _ hcycle
  obtain ⟨hsimple, hin⟩ := PaymentGraph.simpleCycle_subgraph.mp hsimple
  obtain ⟨htwo, htouches, hfits⟩ := exists_examine.mp ⟨row, hexamine⟩
  obtain rfl := accounts_of_examine hexamine
  rw [hopsOf_subgraph hin] at hfits
  have hshort : row.accounts.length ≤ query.maxCycleLength.toNat := hlength
  have htwo' : 2 ≤ row.accounts.length := htwo
  exact ⟨⟨hsimple, htwo, by omega, htouches⟩, hfits⟩

/-- What a search that was not cut short reports: cycles that the query asks for and whose tightest
run fits it, one for each set of accounts. -/
structure Reports (query : Query) (graph : PaymentGraph) (found : List PathCycle) : Prop where
  sound : ∀ row ∈ found,
    Sought query graph row.accounts ∧ TightestFits query (hopsOf graph row.accounts)
  complete : ∀ cycle, Sought query graph cycle → TightestFits query (hopsOf graph cycle) →
    ∃ row ∈ found, row.accounts.toFinset = cycle.toFinset
  distinct : ∀ row ∈ found, ∀ row' ∈ found, row.accounts.toFinset = row'.accounts.toFinset →
    row = row'

theorem Tracked.reports {components : List (List String)}
    (h : Tracked query (listing nx query graph components) s)
    (hlisted : ∀ cycle, Sought query graph cycle → ∃ e ∈ listing nx query graph components,
      e.2 ~r cycle ∧ hopsOf e.1 e.2 = hopsOf graph e.2) : Reports query graph s.cycles where
  sound row hrow := by
    obtain ⟨e, he, hexamine⟩ := h.sound row hrow
    exact sought_of_examine he hexamine
  complete cycle hsought hfits := by
    obtain ⟨e, he, hrotated, hhops⟩ := hlisted cycle hsought
    have htouches : query.Touches e.2 := by
      intro roots hroots
      obtain ⟨account, haccount, hroot⟩ := hsought.touches roots hroots
      exact ⟨account, hrotated.perm.mem_iff.mpr haccount, hroot⟩
    have hpasses : TightestFits query (hopsOf e.1 e.2) := by
      rw [hhops]
      exact hfits.rotate hrotated.symm
    obtain ⟨row, hexamine⟩ := exists_examine.mpr
      ⟨hsought.long.trans_eq hrotated.perm.length_eq.symm, htouches, hpasses⟩
    obtain ⟨row', hrow', haccounts, -⟩ := (h.seen_iff _ _).mp (h.complete e he row hexamine)
    refine ⟨row', hrow', haccounts.trans ?_⟩
    rw [accounts_of_examine hexamine]
    exact List.toFinset_eq_of_perm _ _ hrotated.perm
  distinct row hrow row' hrow' haccounts := by
    have hlength {row : PathCycle} (hrow : row ∈ s.cycles) :
        row.accounts.length = row.accounts.toFinset.card := by
      obtain ⟨e, he, hexamine⟩ := h.sound row hrow
      exact (List.toFinset_card_of_nodup (sought_of_examine he hexamine).1.simple.nodup).symm
    exact h.distinct row hrow row' hrow' haccounts
      (by rw [hlength hrow, hlength hrow', haccounts])

theorem Reports.congr {found found' : List PathCycle} (h : Reports query graph found)
    (hmem : ∀ row, row ∈ found' ↔ row ∈ found) : Reports query graph found' where
  sound row hrow := h.sound row ((hmem row).mp hrow)
  complete cycle hsought hfits := by
    obtain ⟨row, hrow, haccounts⟩ := h.complete cycle hsought hfits
    exact ⟨row, (hmem row).mpr hrow, haccounts⟩
  distinct row hrow row' hrow' :=
    h.distinct row ((hmem row).mp hrow) row' ((hmem row').mp hrow')

theorem SearchedInFull.reports {found : List PathCycle}
    (h : SearchedInFull nx clock query graph found) : Reports query graph found := by
  have hreturned := h.returned
  have hbudget := h.budget
  rw [detectPathPaymentCycles] at hreturned
  rw [search] at hreturned hbudget
  cases hcheck : query.check with
  | error e =>
    rw [hcheck] at hreturned
    cases hreturned
  | ok =>
    rw [hcheck] at hreturned hbudget
    have htracked : Tracked query (listing nx query graph (nx.stronglyConnectedComponents graph))
        (searchComponents nx clock query graph (nx.stronglyConnectedComponents graph) .start) :=
      (Tracked.init query).searchComponents _ (hbudget _ rfl)
    refine (htracked.reports fun cycle hcycle => hcycle.exists_listed h.sizes).congr fun row => ?_
    obtain rfl := Except.ok.inj hreturned
    exact List.mem_insertionSort _

/-- A full search reports the cycles that qualify, and no others, just where each has a tightest run
that fits too and no two of them have the same accounts. -/
theorem complete_iff {found : List PathCycle} (h : SearchedInFull nx clock query graph found) :
    (∀ cycle, Sought query graph cycle → (Reported found cycle ↔ Qualifies query graph cycle)) ↔
      (∀ cycle, Sought query graph cycle → Qualifies query graph cycle →
        TightestFits query (hopsOf graph cycle)) ∧
      ∀ cycle cycle', Sought query graph cycle → Sought query graph cycle' →
        Qualifies query graph cycle → Qualifies query graph cycle' →
        cycle.toFinset = cycle'.toFinset → cycle ~r cycle' := by
  have hreports := h.reports
  constructor
  · intro hcomplete
    refine ⟨fun cycle hsought hqualifies => ?_,
      fun cycle cycle' hsought hsought' hqualifies hqualifies' haccounts => ?_⟩
    · obtain ⟨row, hrow, hrotated⟩ := (hcomplete cycle hsought).mpr hqualifies
      exact (hreports.sound row hrow).2.rotate hrotated
    · obtain ⟨row, hrow, hrotated⟩ := (hcomplete cycle hsought).mpr hqualifies
      obtain ⟨row', hrow', hrotated'⟩ := (hcomplete cycle' hsought').mpr hqualifies'
      have hsame : row.accounts.toFinset = row'.accounts.toFinset := by
        rw [List.toFinset_eq_of_perm _ _ hrotated.perm, haccounts,
          List.toFinset_eq_of_perm _ _ hrotated'.perm]
      obtain rfl := hreports.distinct row hrow row' hrow' hsame
      exact hrotated.symm.trans hrotated'
  · rintro ⟨hfits, hunique⟩ cycle hsought
    constructor
    · rintro ⟨row, hrow, hrotated⟩
      exact qualifies_of_tightestFits ((hreports.sound row hrow).2.rotate hrotated)
    · intro hqualifies
      obtain ⟨row, hrow, haccounts⟩ :=
        hreports.complete cycle hsought (hfits cycle hsought hqualifies)
      obtain ⟨hsought', hfits'⟩ := hreports.sound row hrow
      exact ⟨row, hrow, hunique row.accounts cycle hsought' hsought
        (qualifies_of_tightestFits hfits') hqualifies haccounts⟩

def payment (source destination : String) (amount time : ℚ) : PaymentRow where
  sourceAccount := source
  destinationAccount := destination
  sourceAsset := some "XLM"
  destinationAsset := some "USDC"
  sourceAmount := some amount
  timestamp := some time
  transactionHash := some "tx"

/-- Of the parameters of the search only the floor of the amounts differs from the defaults. -/
def floorTen : Query := { Query.default with minCycleXlm := 10 }

def ring : PaymentGraph := buildPathPaymentGraph [payment "A" "B" 100 0, payment "B" "A" 100 60]

theorem complete_iff_ring :
    ∃ found, SearchedInFull .exhaustive (fun _ => 0) floorTen ring found ∧
      ((∀ cycle, Sought floorTen ring cycle →
          (Reported found cycle ↔ Qualifies floorTen ring cycle)) ↔
        (∀ cycle, Sought floorTen ring cycle → Qualifies floorTen ring cycle →
          TightestFits floorTen (hopsOf ring cycle)) ∧
        ∀ cycle cycle', Sought floorTen ring cycle → Sought floorTen ring cycle' →
          Qualifies floorTen ring cycle → Qualifies floorTen ring cycle' →
          cycle.toFinset = cycle'.toFinset → cycle ~r cycle') := by
  have hfull : SearchedInFull .exhaustive (fun _ => 0) floorTen ring
      [⟨["A", "B"], ["XLM", "XLM", "XLM"], 100, 2, 60, 2, ["tx", "tx"]⟩] := by
    refine ⟨by decide +kernel, fun s hs => ?_, by decide +kernel⟩
    have hbudget : (search .exhaustive (fun _ => 0) floorTen ring).map Search.budgetExhausted =
        .ok false := by decide +kernel
    rw [hs] at hbudget
    exact Except.ok.inj hbudget
  exact ⟨_, hfull, complete_iff hfull⟩

def ringWithDust : PaymentGraph :=
  buildPathPaymentGraph [payment "A" "B" 100 0, payment "A" "B" 1 50, payment "B" "A" 100 60]

theorem ring_missed :
    ∃ found, SearchedInFull .exhaustive (fun _ => 0) floorTen ringWithDust found ∧
      ¬ ∀ cycle, Sought floorTen ringWithDust cycle →
        (Reported found cycle ↔ Qualifies floorTen ringWithDust cycle) := by
  refine ⟨[], ⟨by decide +kernel, fun s hs => ?_, by decide +kernel⟩, fun h => ?_⟩
  · have hbudget : (search .exhaustive (fun _ => 0) floorTen ringWithDust).map
        Search.budgetExhausted = .ok false := by decide +kernel
    rw [hs] at hbudget
    exact Except.ok.inj hbudget
  · have hsought : Sought floorTen ringWithDust ["A", "B"] :=
      ⟨⟨by decide, chain_iff.mpr (by decide)⟩, by decide, by decide, by decide⟩
    have hqualifies : Qualifies floorTen ringWithDust ["A", "B"] :=
      ⟨fun e => if e = ("A", "B") then (payment "A" "B" 100 0).hop
        else (payment "B" "A" 100 60).hop,
        by decide, by decide +kernel, by decide +kernel⟩
    obtain ⟨row, hrow, -⟩ := (h _ hsought).mpr hqualifies
    cases hrow

end PathCycleCompleteness
