import LedgerLens.PathPaymentGraph

/-!
# Round trips in the hop graph

`find_cycles` of `detection/path_payment_engine.py`, which searches the hop graph depth first from
the nodes of a wallet. The hop that stands for a pair of nodes is the one added last. Hops are told
apart by their values, since no two stored ones are of one operation (`Graph.Distinct`).
-/
namespace PathPaymentCycles

open Dictionaries PathPaymentGraph

structure PathPaymentCycle where
  originWallet : String
  originAsset : String
  hops : List HopEdge
  recoveryRatio : ℚ
  cycleDurationSeconds : ℚ
  counterpartyOverlap : ℚ
  cycleScore : ℚ
  deriving DecidableEq, Repr

def PathPaymentCycle.pathLength (cycle : PathPaymentCycle) : ℕ := cycle.hops.length

def scoreCycle (cycle : PathPaymentCycle) : ℚ :=
  let timingScore := 1 / (1 + cycle.cycleDurationSeconds / 600)
  let lengthScore : ℚ := 1 - 1 / ((max cycle.pathLength 1 : ℕ) : ℚ)
  2 / 5 * cycle.recoveryRatio + 3 / 10 * timingScore + 1 / 5 * lengthScore +
    1 / 10 * cycle.counterpartyOverlap

/-- What the last hop brings back of what the first sent. -/
def recovery (hops : List HopEdge) : ℚ :=
  match hops.head?, hops.getLast? with
  | some first, some last => if 0 < first.amount then last.amount / first.amount else 0
  | _, _ => 0

def duration (hops : List HopEdge) : ℚ :=
  let timestamps := hops.map HopEdge.ledgerTimestamp
  timestamps.max?.getD 0 - timestamps.min?.getD 0

def overlap (hops : List HopEdge) : ℚ :=
  let wallets := hops.map HopEdge.srcWallet
  let maxCount := (wallets.map fun w => wallets.count w).max?.getD 0
  if 1 < hops.length then ((maxCount : ℚ) - 1) / (hops.length - 1) else 0

def cycleOf (start : Node) (hops : List HopEdge) : PathPaymentCycle :=
  let cycle : PathPaymentCycle :=
    { originWallet := start.1
      originAsset := start.2
      hops := hops
      recoveryRatio := recovery hops
      cycleDurationSeconds := duration hops
      counterpartyOverlap := overlap hops
      cycleScore := 0 }
  { cycle with cycleScore := scoreCycle cycle }

structure Found where
  cycles : List PathPaymentCycle
  seen : Finset (Finset HopEdge)

def Found.close (found : Found) (start : Node) (hops : List HopEdge) : Found :=
  if hops.toFinset ∈ found.seen then found
  else if recovery hops < 1 / 2 then { found with seen := insert hops.toFinset found.seen }
  else ⟨found.cycles ++ [cycleOf start hops], insert hops.toFinset found.seen⟩

section Search

variable (g : Graph)

/-- The search, whose paths have at most `maxDepth` hops: it ends before the fuel does. -/
def dfs (start : Node) : ℕ → Node → List HopEdge → Found → Found
  | 0, _, _, found => found
  | fuel + 1, current, path, found =>
    if g.maxDepth < path.length then found
    else (g.adjacency.targets current).entries.foldl (fun found entry =>
      match entry.2.getLast? with
      | none => found
      | some edge =>
        if entry.1 = start ∧ 2 ≤ path.length then found.close start (path ++ [edge])
        else if entry.1 = start ∨ entry.1 ∈ path.map HopEdge.src then found
        else if g.maxDepth ≤ path.length then found
        else dfs start fuel entry.1 (path ++ [edge]) found) found

def searchFuel : ℕ := g.maxDepth.toNat + 1

def originNodes (wallet : String) : List Node := g.adjacency.keys.filter fun n => n.1 = wallet

/-- The wallet has too many nodes in its set to be searched. -/
def Exempt (wallet : String) : Prop :=
  MAX_NODES_PER_WALLET < (g.counters.walletNodes wallet).card

instance (wallet : String) : Decidable (Exempt g wallet) := inferInstanceAs (Decidable (_ < _))

def findCycles (wallet : String) : List PathPaymentCycle :=
  if g.counters.walletEdges wallet = 0 then []
  else if Exempt g wallet then []
  else ((originNodes g wallet).foldl (fun found start => dfs g start (searchFuel g) start [] found)
    ⟨[], ∅⟩).cycles

def closures (start : Node) : ℕ → Node → List HopEdge → List (List HopEdge)
  | 0, _, _ => []
  | fuel + 1, current, path =>
    if g.maxDepth < path.length then []
    else (g.adjacency.targets current).entries.flatMap fun entry =>
      match entry.2.getLast? with
      | none => []
      | some edge =>
        if entry.1 = start ∧ 2 ≤ path.length then [path ++ [edge]]
        else if entry.1 = start ∨ entry.1 ∈ path.map HopEdge.src then []
        else if g.maxDepth ≤ path.length then []
        else closures start fuel entry.1 (path ++ [edge])

theorem dfs_eq (start : Node) (fuel : ℕ) (current : Node) (path : List HopEdge) (found : Found) :
    dfs g start fuel current path found =
      (closures g start fuel current path).foldl
          (fun found hops => found.close start hops) found := by
  induction fuel generalizing current path found with
  | zero => rfl
  | succ fuel ih =>
    rw [dfs, closures]
    by_cases hdepth : g.maxDepth < path.length
    · rw [if_pos hdepth, if_pos hdepth]
      rfl
    rw [if_neg hdepth, if_neg hdepth, List.foldl_flatMap]
    congr 1
    funext found entry
    cases entry.2.getLast? with
    | none => rfl
    | some edge =>
      simp only
      split_ifs
      · rfl
      · rfl
      · rfl
      · exact ih entry.1 (path ++ [edge]) found

def closed (wallet : String) : List (Node × List HopEdge) :=
  (originNodes g wallet).flatMap fun start =>
    (closures g start (searchFuel g) start []).map fun hops => (start, hops)

theorem search_eq (wallet : String) (found : Found) :
    (originNodes g wallet).foldl (fun found start => dfs g start (searchFuel g) start [] found)
        found =
      (closed g wallet).foldl (fun found r => found.close r.1 r.2) found := by
  rw [closed, List.foldl_flatMap]
  congr 1
  funext found start
  rw [dfs_eq, List.foldl_map]

def latest (s d : Node) : Option HopEdge := (g.adjacency.stored s d).getLast?

/-- The hops lead from a node back to the start. Every one but the last leads to a node that is not
the start, and from which no earlier hop leaves: a hop from a node to itself is one of these. -/
structure ClosesFrom (start current : Node) (path rest : List HopEdge) : Prop where
  latest : ∀ e ∈ rest, latest g e.src e.dst = some e
  linked : rest.map HopEdge.src ++ [start] = current :: rest.map HopEdge.dst
  nonempty : rest ≠ []
  long : 3 ≤ path.length + rest.length
  short : path.length + rest.length ≤ g.maxDepth + 1
  apart : ∀ before e after, rest = before ++ e :: after → after ≠ [] →
    e.dst ≠ start ∧ e.dst ∉ (path ++ before).map HopEdge.src

def Ring (start : Node) (hops : List HopEdge) : Prop := ClosesFrom g start start [] hops

variable {g}

theorem closesFrom_nil_iff {start current : Node} {path : List HopEdge} {e : HopEdge} :
    ClosesFrom g start current path [e] ↔ latest g current e.dst = some e ∧ e.src = current ∧
      e.dst = start ∧ 2 ≤ path.length ∧ path.length ≤ g.maxDepth := by
  constructor
  · rintro ⟨hlatest, hlinked, -, hlong, hshort, -⟩
    simp only [List.map_cons, List.map_nil, List.cons_append, List.nil_append, List.cons.injEq,
      and_true] at hlinked
    rw [List.length_singleton] at hlong hshort
    refine ⟨?_, hlinked.1, hlinked.2.symm, by omega, by omega⟩
    rw [← hlinked.1]
    exact hlatest e List.mem_cons_self
  · rintro ⟨hlatest, rfl, rfl, hlong, hshort⟩
    refine ⟨fun e' he' => ?_, rfl, List.cons_ne_nil _ _, ?_, ?_, fun before e' after h hne => ?_⟩
    · rw [List.mem_singleton.mp he']
      exact hlatest
    · rw [List.length_singleton]
      omega
    · rw [List.length_singleton]
      omega
    · have hlength := congrArg List.length h
      have := List.length_pos_iff.mpr hne
      simp only [List.length_append, List.length_cons, List.length_nil] at hlength
      omega

theorem closesFrom_cons_iff {start current : Node} {path rest : List HopEdge} {e : HopEdge}
    (hrest : rest ≠ []) : ClosesFrom g start current path (e :: rest) ↔
      latest g current e.dst = some e ∧ e.src = current ∧ e.dst ≠ start ∧
        e.dst ∉ path.map HopEdge.src ∧ ClosesFrom g start e.dst (path ++ [e]) rest := by
  have hlength : (path ++ [e]).length + rest.length = path.length + (e :: rest).length := by
    simp only [List.length_append, List.length_cons, List.length_nil]
    omega
  constructor
  · rintro ⟨hlatest, hlinked, -, hlong, hshort, hapart⟩
    rw [List.map_cons, List.cons_append, List.cons.injEq, List.map_cons] at hlinked
    have hfirst := hapart [] e rest rfl hrest
    rw [List.append_nil] at hfirst
    refine ⟨?_, hlinked.1, hfirst.1, hfirst.2, fun e' he' =>
      hlatest e' (List.mem_cons_of_mem _ he'),
      hlinked.2, hrest, by omega, by omega, fun before e' after h hne => ?_⟩
    · rw [← hlinked.1]
      exact hlatest e List.mem_cons_self
    · rw [List.append_assoc]
      exact hapart (e :: before) e' after (by rw [h]; rfl) hne
  · rintro ⟨hlatest, rfl, hstart, hpath, hfrom⟩
    refine ⟨fun e' he' => ?_, ?_, List.cons_ne_nil _ _, ?_, ?_, fun before e' after h hne => ?_⟩
    · rcases List.mem_cons.mp he' with rfl | he'
      · exact hlatest
      · exact hfrom.latest e' he'
    · rw [List.map_cons, List.cons_append, hfrom.linked, List.map_cons]
    · have := hfrom.long
      omega
    · have := hfrom.short
      omega
    · cases before with
      | nil =>
        obtain ⟨rfl, rfl⟩ := List.cons.inj h
        rw [List.append_nil]
        exact ⟨hstart, hpath⟩
      | cons e₀ before =>
        obtain ⟨rfl, hrest⟩ := List.cons.inj h
        have hapart := hfrom.apart before e' after hrest hne
        rwa [List.append_assoc] at hapart

theorem mem_targets {current : Node} {d : Node} {edges : List HopEdge} :
    (d, edges) ∈ (g.adjacency.targets current).entries →
      g.adjacency.stored current d = edges := by
  intro h
  rw [Adjacency.stored, Dictionary.get?_eq_some.mpr h, Option.getD_some]

theorem entry_of_latest {current d : Node} {e : HopEdge} (h : latest g current d = some e) :
    (d, g.adjacency.stored current d) ∈ (g.adjacency.targets current).entries := by
  rw [latest, Adjacency.stored] at h
  refine Dictionary.get?_eq_some.mp ?_
  rw [Adjacency.stored]
  cases hd : (g.adjacency.targets current).get? d with
  | none =>
    rw [hd] at h
    cases h
  | some edges => rfl

theorem ClosesFrom.path_le {start current : Node} {path rest : List HopEdge}
    (h : ClosesFrom g start current path rest) : path.length ≤ g.maxDepth := by
  have := List.length_pos_iff.mpr h.nonempty
  have := h.short
  omega

/-- One call of the search follows the newest hop to each neighbour: the hop closes the trip, or
the search goes on behind it. -/
theorem mem_closures_succ (hg : g.Counted) {start : Node} {hops : List HopEdge} {fuel : ℕ}
    {current : Node} {path : List HopEdge} (hdepth : path.length ≤ g.maxDepth) :
    hops ∈ closures g start (fuel + 1) current path ↔
      ∃ edge, latest g current edge.dst = some edge ∧ edge.src = current ∧
        (edge.dst = start ∧ 2 ≤ path.length ∧ hops = path ++ [edge] ∨
          edge.dst ≠ start ∧ edge.dst ∉ path.map HopEdge.src ∧ path.length < g.maxDepth ∧
            hops ∈ closures g start fuel edge.dst (path ++ [edge])) := by
  rw [closures, if_neg (by omega), List.mem_flatMap]
  constructor
  · rintro ⟨⟨d, edges⟩, hentry, hmem⟩
    have hstored := mem_targets hentry
    simp only at hmem
    cases hlast : edges.getLast? with
    | none =>
      rw [hlast] at hmem
      cases hmem
    | some edge =>
      obtain ⟨hsrc, rfl⟩ := hg.mem_stored (hstored ▸ List.mem_of_getLast? hlast)
      have hlatest : latest g current edge.dst = some edge := by rw [latest, hstored, hlast]
      refine ⟨edge, hlatest, hsrc, ?_⟩
      rw [hlast] at hmem
      simp only at hmem
      split_ifs at hmem with hclose hvisited hdeep
      · exact .inl ⟨hclose.1, hclose.2, List.mem_singleton.mp hmem⟩
      · cases hmem
      · cases hmem
      · rw [not_or] at hvisited
        exact .inr ⟨hvisited.1, hvisited.2, not_le.mp hdeep, hmem⟩
  · rintro ⟨edge, hlatest, -, hbranch⟩
    refine ⟨_, entry_of_latest hlatest, ?_⟩
    rw [latest] at hlatest
    simp only [hlatest]
    rcases hbranch with ⟨hstart, hlong, rfl⟩ | ⟨hstart, hvisited, hshort, hmem⟩
    · rw [if_pos ⟨hstart, hlong⟩]
      exact List.mem_singleton.mpr rfl
    · rw [if_neg (fun h => hstart h.1), if_neg (not_or.mpr ⟨hstart, hvisited⟩),
        if_neg (not_le.mpr hshort)]
      exact hmem

theorem mem_closures_iff (hg : g.Counted) {start : Node} {hops : List HopEdge} {fuel : ℕ}
    {current : Node} {path : List HopEdge} (hfuel : g.maxDepth < path.length + fuel) :
    hops ∈ closures g start fuel current path ↔
      ∃ rest, hops = path ++ rest ∧ ClosesFrom g start current path rest := by
  induction fuel generalizing current path with
  | zero =>
    refine iff_of_false List.not_mem_nil ?_
    rintro ⟨rest, -, hfrom⟩
    exact absurd hfrom.path_le (not_le.mpr hfuel)
  | succ fuel ih =>
    by_cases hdepth : g.maxDepth < path.length
    · rw [closures, if_pos hdepth]
      refine iff_of_false List.not_mem_nil ?_
      rintro ⟨rest, -, hfrom⟩
      exact absurd hfrom.path_le (not_le.mpr hdepth)
    have hnext (e : HopEdge) : g.maxDepth < (path ++ [e]).length + fuel := by
      rw [List.length_append, List.length_singleton]
      omega
    rw [mem_closures_succ hg (not_lt.mp hdepth)]
    constructor
    · rintro ⟨edge, hlatest, hsrc, ⟨hstart, hlong, rfl⟩ | ⟨hstart, hvisited, -, hmem⟩⟩
      · exact ⟨[edge], rfl, closesFrom_nil_iff.mpr ⟨hlatest, hsrc, hstart, hlong, not_lt.mp hdepth⟩⟩
      · obtain ⟨rest, rfl, hfrom⟩ := (ih (hnext edge)).mp hmem
        refine ⟨edge :: rest, by rw [List.append_assoc]; rfl, ?_⟩
        exact (closesFrom_cons_iff hfrom.nonempty).mpr ⟨hlatest, hsrc, hstart, hvisited, hfrom⟩
    · rintro ⟨rest, rfl, hfrom⟩
      cases rest with
      | nil => exact absurd rfl hfrom.nonempty
      | cons edge rest =>
        by_cases hrest : rest = []
        · subst hrest
          obtain ⟨hlatest, hsrc, hstart, hlong, -⟩ := closesFrom_nil_iff.mp hfrom
          exact ⟨edge, hlatest, hsrc, .inl ⟨hstart, hlong, rfl⟩⟩
        · obtain ⟨hlatest, hsrc, hstart, hvisited, hfrom⟩ := (closesFrom_cons_iff hrest).mp hfrom
          have hshort := hfrom.path_le
          rw [List.length_append, List.length_singleton] at hshort
          refine ⟨edge, hlatest, hsrc, .inr ⟨hstart, hvisited, hshort, (ih (hnext edge)).mpr ?_⟩⟩
          exact ⟨rest, by rw [List.append_assoc]; rfl, hfrom⟩

theorem mem_closures_start_iff (hg : g.Counted) {start : Node} {hops : List HopEdge} :
    hops ∈ closures g start (searchFuel g) start [] ↔ Ring g start hops := by
  rw [mem_closures_iff hg (by rw [searchFuel, List.length_nil]; omega)]
  simp only [List.nil_append, exists_eq_left', Ring]

theorem Ring.mem_keys {start : Node} {hops : List HopEdge} (h : Ring g start hops) :
    start ∈ g.adjacency.keys := by
  cases hops with
  | nil => exact absurd rfl h.nonempty
  | cons e rest =>
    have hlinked := h.linked
    rw [List.map_cons, List.cons_append, List.cons.injEq] at hlinked
    have hlatest := h.latest e List.mem_cons_self
    rw [hlinked.1, latest, Adjacency.stored, Adjacency.targets] at hlatest
    cases hs : g.adjacency.get? start with
    | none =>
      rw [hs] at hlatest
      cases hlatest
    | some T => exact Dictionary.mem_keys_iff.mpr ⟨T, hs⟩

theorem mem_closed_iff (hg : g.Counted) {wallet : String} {r : Node × List HopEdge} :
    r ∈ closed g wallet ↔ r.1.1 = wallet ∧ Ring g r.1 r.2 := by
  rw [closed, List.mem_flatMap]
  constructor
  · rintro ⟨start, hstart, hmem⟩
    obtain ⟨hops, hhops, rfl⟩ := List.mem_map.mp hmem
    rw [originNodes, List.mem_filter, decide_eq_true_eq] at hstart
    exact ⟨hstart.2, (mem_closures_start_iff hg).mp hhops⟩
  · rintro ⟨hwallet, hring⟩
    refine ⟨r.1, ?_, List.mem_map.mpr ⟨r.2, (mem_closures_start_iff hg).mpr hring, rfl⟩⟩
    rw [originNodes, List.mem_filter, decide_eq_true_eq]
    exact ⟨hring.mem_keys, hwallet⟩

/-- The nodes of the round trips closed stand in the order of the graph. -/
theorem closed_sorted (wallet : String) : (closed g wallet).Pairwise
    fun r r' => g.adjacency.keys.idxOf r.1 ≤ g.adjacency.keys.idxOf r'.1 := by
  have hkeys : (originNodes g wallet).Pairwise
      fun n n' => g.adjacency.keys.idxOf n ≤ g.adjacency.keys.idxOf n' := by
    refine List.Pairwise.filter _ ?_
    have hnodup : g.adjacency.keys.Nodup := g.adjacency.nodup
    refine List.pairwise_iff_getElem.mpr fun i j hi hj hij => ?_
    rw [List.Nodup.idxOf_getElem hnodup, List.Nodup.idxOf_getElem hnodup]
    exact hij.le
  refine List.pairwise_flatMap.mpr ⟨fun n _ => ?_, hkeys.imp fun {n n'} hle => ?_⟩
  · exact List.pairwise_map.mpr (List.pairwise_of_forall fun _ _ => le_refl _)
  · rintro r hr r' hr'
    obtain ⟨hops, -, rfl⟩ := List.mem_map.mp hr
    obtain ⟨hops', -, rfl⟩ := List.mem_map.mp hr'
    exact hle

end Search

section Reports

def FirstIn (l : List (Node × List HopEdge)) (r : Node × List HopEdge) : Prop :=
  ∃ before after, l = before ++ r :: after ∧ ∀ r' ∈ before, r'.2.toFinset ≠ r.2.toFinset

theorem firstIn_append_iff {l : List (Node × List HopEdge)} {r r' : Node × List HopEdge} :
    FirstIn (l ++ [r]) r' ↔
      FirstIn l r' ∨ (r' = r ∧ ∀ r₀ ∈ l, r₀.2.toFinset ≠ r.2.toFinset) := by
  constructor
  · rintro ⟨before, after, heq, hfirst⟩
    rcases List.eq_nil_or_concat after with rfl | ⟨after, last, rfl⟩
    · obtain ⟨rfl, hr⟩ := List.append_inj' heq rfl
      obtain rfl := List.head_eq_of_cons_eq hr
      exact .inr ⟨rfl, hfirst⟩
    · rw [List.concat_eq_append, ← List.cons_append, ← List.append_assoc] at heq
      exact .inl ⟨before, after, (List.append_inj' heq rfl).1, hfirst⟩
  · rintro (⟨before, after, rfl, hfirst⟩ | ⟨rfl, hfirst⟩)
    · exact ⟨before, after ++ [r], by rw [List.append_assoc]; rfl, hfirst⟩
    · exact ⟨l, [], rfl, hfirst⟩

theorem FirstIn.mem {l : List (Node × List HopEdge)} {r : Node × List HopEdge} (h : FirstIn l r) :
    r ∈ l := by
  obtain ⟨before, after, rfl, -⟩ := h
  exact List.mem_append_right _ List.mem_cons_self

theorem exists_firstIn {l : List (Node × List HopEdge)} {r : Node × List HopEdge} (h : r ∈ l) :
    ∃ r', FirstIn l r' ∧ r'.2.toFinset = r.2.toFinset := by
  induction l using List.reverseRecOn generalizing r with
  | nil => cases h
  | append_singleton l last ih =>
    have hearlier {r₀ : Node × List HopEdge} (hr₀ : r₀ ∈ l) :
        ∃ r', FirstIn (l ++ [last]) r' ∧ r'.2.toFinset = r₀.2.toFinset := by
      obtain ⟨r', hfirst, heq⟩ := ih hr₀
      exact ⟨r', firstIn_append_iff.mpr (.inl hfirst), heq⟩
    rcases List.mem_append.mp h with h | h
    · exact hearlier h
    · rw [List.mem_singleton.mp h]
      by_cases hl : ∃ r₀ ∈ l, r₀.2.toFinset = last.2.toFinset
      · obtain ⟨r₀, hr₀, heq⟩ := hl
        rw [← heq]
        exact hearlier hr₀
      · push Not at hl
        exact ⟨last, firstIn_append_iff.mpr (.inr ⟨rfl, hl⟩), rfl⟩

structure Closed (l : List (Node × List HopEdge)) (found : Found) : Prop where
  seen : ∀ S, S ∈ found.seen ↔ ∃ r ∈ l, r.2.toFinset = S
  cycles : ∀ c, c ∈ found.cycles ↔ ∃ r, FirstIn l r ∧ 1 / 2 ≤ recovery r.2 ∧ c = cycleOf r.1 r.2
  once : (found.cycles.map fun c => c.hops.toFinset).Nodup

theorem Closed.close {l : List (Node × List HopEdge)} {found : Found} (h : Closed l found)
    (r : Node × List HopEdge) : Closed (l ++ [r]) (found.close r.1 r.2) := by
  have hseen (S : Finset HopEdge) : (∃ r' ∈ l ++ [r], r'.2.toFinset = S) ↔
      S = r.2.toFinset ∨ S ∈ found.seen := by
    rw [h.seen]
    constructor
    · rintro ⟨r', hr', rfl⟩
      rcases List.mem_append.mp hr' with hr' | hr'
      · exact .inr ⟨r', hr', rfl⟩
      · rw [List.mem_singleton.mp hr']
        exact .inl rfl
    · rintro (rfl | ⟨r', hr', rfl⟩)
      · exact ⟨r, List.mem_append_right _ (List.mem_singleton.mpr rfl), rfl⟩
      · exact ⟨r', List.mem_append_left _ hr', rfl⟩
  rw [Found.close]
  by_cases hclosed : r.2.toFinset ∈ found.seen
  · obtain ⟨r₀, hr₀, heq₀⟩ := (h.seen _).mp hclosed
    rw [if_pos hclosed]
    refine ⟨fun S => ?_, fun c => ?_, h.once⟩
    · rw [hseen, or_iff_right_of_imp]
      rintro rfl
      exact hclosed
    · rw [h.cycles]
      refine exists_congr fun r' => and_congr_left fun _ => ?_
      rw [firstIn_append_iff, or_iff_left]
      rintro ⟨-, hfirst⟩
      exact hfirst r₀ hr₀ heq₀
  have hfirst : ∀ r₀ ∈ l, r₀.2.toFinset ≠ r.2.toFinset := fun r₀ hr₀ heq =>
    hclosed ((h.seen _).mpr ⟨r₀, hr₀, heq⟩)
  have hcycles (c : PathPaymentCycle) :
      (∃ r', FirstIn (l ++ [r]) r' ∧ 1 / 2 ≤ recovery r'.2 ∧ c = cycleOf r'.1 r'.2) ↔
        c ∈ found.cycles ∨ (1 / 2 ≤ recovery r.2 ∧ c = cycleOf r.1 r.2) := by
    rw [h.cycles]
    simp only [firstIn_append_iff, or_and_right, exists_or]
    refine or_congr_right ⟨?_, fun hr => ⟨r, ⟨rfl, hfirst⟩, hr⟩⟩
    rintro ⟨r', ⟨rfl, -⟩, hr⟩
    exact hr
  rw [if_neg hclosed]
  by_cases hrecovery : recovery r.2 < 1 / 2
  · rw [if_pos hrecovery]
    refine ⟨fun S => ?_, fun c => ?_, h.once⟩
    · rw [hseen, Finset.mem_insert]
    · rw [hcycles, or_iff_left fun hr => absurd hrecovery (not_lt.mpr hr.1)]
  · rw [if_neg hrecovery]
    refine ⟨fun S => ?_, fun c => ?_, ?_⟩
    · rw [hseen, Finset.mem_insert]
    · rw [hcycles, List.mem_append, List.mem_singleton, and_iff_right (not_lt.mp hrecovery)]
    · rw [List.map_append, List.map_singleton, ← List.concat_eq_append, List.nodup_concat]
      refine ⟨fun hmem => ?_, h.once⟩
      obtain ⟨c, hc, heq⟩ := List.mem_map.mp hmem
      obtain ⟨r₀, hr₀, -, rfl⟩ := (h.cycles c).mp hc
      exact hfirst r₀ hr₀.mem heq

theorem closed_foldl (l : List (Node × List HopEdge)) :
    Closed l (l.foldl (fun found r => found.close r.1 r.2) ⟨[], ∅⟩) := by
  induction l using List.reverseRecOn with
  | nil =>
    refine ⟨fun S => ?_, fun c => ?_, List.nodup_nil⟩
    · simp
    · refine iff_of_false List.not_mem_nil ?_
      rintro ⟨r, ⟨before, after, heq, -⟩, -⟩
      exact List.append_ne_nil_of_right_ne_nil _ (List.cons_ne_nil _ _) heq.symm
  | append_singleton l r ih =>
    rw [List.foldl_append]
    exact ih.close r

end Reports

section Rings

variable {g : Graph} {start current : Node} {path rest hops hops' : List HopEdge}

theorem linked_next {before after : List HopEdge} {e e' : HopEdge}
    (h : (before ++ e :: e' :: after).map HopEdge.src ++ [start] =
      current :: (before ++ e :: e' :: after).map HopEdge.dst) : e.dst = e'.src := by
  induction before generalizing current with
  | nil =>
    simp only [List.nil_append, List.map_cons, List.cons_append, List.cons.injEq] at h
    exact h.2.1.symm
  | cons e₀ before ih =>
    rw [List.cons_append, List.map_cons, List.cons_append, List.cons.injEq, List.map_cons] at h
    exact ih h.2

theorem linked_last {before : List HopEdge} {e : HopEdge}
    (h : (before ++ [e]).map HopEdge.src ++ [start] =
      current :: (before ++ [e]).map HopEdge.dst) : e.dst = start := by
  rw [List.map_append (f := HopEdge.dst), List.map_singleton, ← List.cons_append] at h
  exact (List.singleton_inj.mp (List.append_inj' h rfl).2).symm

theorem ClosesFrom.nodup (h : ClosesFrom g start current path rest) : rest.Nodup := by
  induction rest generalizing current path with
  | nil => exact List.nodup_nil
  | cons e rest ih =>
    by_cases hrest : rest = []
    · subst hrest
      exact List.nodup_singleton e
    obtain ⟨-, -, hstart, -, hfrom⟩ := (closesFrom_cons_iff hrest).mp h
    refine List.nodup_cons.mpr ⟨fun hmem => ?_, ih hfrom⟩
    -- The hop would come again after it was taken, and lead to a node already left.
    obtain ⟨before, after, rfl⟩ := List.mem_iff_append.mp hmem
    have hafter : after ≠ [] := by
      rintro rfl
      exact hstart (linked_last hfrom.linked)
    have hapart := (hfrom.apart before e after rfl hafter).2
    have hlinked := hfrom.linked
    cases before with
    | nil =>
      rw [List.nil_append, List.map_cons, List.cons_append, List.cons.injEq] at hlinked
      refine hapart (List.mem_map.mpr ⟨e, ?_, hlinked.1⟩)
      rw [List.append_nil]
      exact List.mem_append_right _ (List.mem_singleton.mpr rfl)
    | cons e₀ before =>
      rw [List.cons_append, List.map_cons, List.cons_append, List.cons.injEq] at hlinked
      refine hapart (List.mem_map.mpr ⟨e₀, ?_, hlinked.1⟩)
      exact List.mem_append_right _ List.mem_cons_self

theorem Ring.head_eq (h : Ring g start hops) {e : HopEdge} :
    hops.head? = some e ↔ e ∈ hops ∧ e.src = start := by
  cases hops with
  | nil => exact absurd rfl h.nonempty
  | cons first rest =>
    have hlinked := h.linked
    rw [List.map_cons, List.cons_append, List.cons.injEq] at hlinked
    rw [List.head?_cons, Option.some.injEq]
    constructor
    · rintro rfl
      exact ⟨List.mem_cons_self, hlinked.1⟩
    · rintro ⟨hmem, hsrc⟩
      rcases List.mem_cons.mp hmem with rfl | hmem
      · rfl
      obtain ⟨before, after, rfl⟩ := List.mem_iff_append.mp hmem
      obtain ⟨init, last, hsplit⟩ : ∃ init last, first :: before = init ++ [last] :=
        ⟨_, _, (List.dropLast_append_getLast (List.cons_ne_nil first before)).symm⟩
      have hhops : first :: (before ++ e :: after) = init ++ last :: e :: after := by
        rw [← List.cons_append, hsplit, List.append_assoc, List.singleton_append]
      have hring := h
      rw [hhops] at hring
      have hnext := linked_next hring.linked
      have hne := (hring.apart init last (e :: after) rfl (List.cons_ne_nil _ _)).1
      exact absurd (hnext.trans hsrc) hne

theorem Ring.last_eq (h : Ring g start hops) {e : HopEdge} :
    hops.getLast? = some e ↔ e ∈ hops ∧ e.dst = start := by
  constructor
  · intro hlast
    obtain ⟨before, rfl⟩ := List.getLast?_eq_some_iff.mp hlast
    exact ⟨List.mem_of_getLast? hlast, linked_last h.linked⟩
  · rintro ⟨hmem, hdst⟩
    obtain ⟨before, after, rfl⟩ := List.mem_iff_append.mp hmem
    have hafter : after = [] := by
      by_contra hne
      exact (h.apart before e after rfl hne).1 hdst
    rw [hafter, List.getLast?_concat]

theorem mem_iff_of_toFinset_eq (h : hops.toFinset = hops'.toFinset) {e : HopEdge} :
    e ∈ hops ↔ e ∈ hops' := by
  rw [← List.mem_toFinset, h, List.mem_toFinset]

theorem Ring.recovery_eq (h : Ring g start hops) (h' : Ring g start hops')
    (heq : hops.toFinset = hops'.toFinset) : recovery hops = recovery hops' := by
  have hhead : hops.head? = hops'.head? := Option.ext fun e => by
    rw [h.head_eq, h'.head_eq, mem_iff_of_toFinset_eq heq]
  have hlast : hops.getLast? = hops'.getLast? := Option.ext fun e => by
    rw [h.last_eq, h'.last_eq, mem_iff_of_toFinset_eq heq]
  rw [recovery, recovery, hhead, hlast]

end Rings

section Exactness

variable (g : Graph)

def ratio (hops : List HopEdge) : ℚ :=
  match hops.head?, hops.getLast? with
  | some first, some last => last.amount / first.amount
  | _, _ => 0

/-- A directed cycle of the hops that stand for their nodes, which passes no node twice. -/
structure SimpleCycle (start : Node) (hops : List HopEdge) : Prop where
  latest : ∀ e ∈ hops, latest g e.src e.dst = some e
  linked : hops.map HopEdge.src ++ [start] = start :: hops.map HopEdge.dst
  simple : (hops.map HopEdge.src).Nodup
  long : 3 ≤ hops.length
  short : hops.length ≤ g.maxDepth

/-- A simple cycle from a node of the wallet that brings back half of what was sent. -/
def Qualifies (wallet : String) (hops : List HopEdge) : Prop :=
  ∃ start, start.1 = wallet ∧ SimpleCycle g start hops ∧ 1 / 2 ≤ ratio hops

structure Exact (wallet : String) (cycles : List PathPaymentCycle) : Prop where
  sound : ∀ c ∈ cycles, Qualifies g wallet c.hops
  complete : ∀ hops, Qualifies g wallet hops → ∃ c ∈ cycles, c.hops.toFinset = hops.toFinset
  once : (cycles.map fun c => c.hops.toFinset).Nodup

structure EnteredAt (wallet : String) (start : Node) (hops : List HopEdge) : Prop where
  home : start.1 = wallet
  ring : Ring g start hops
  first : ∀ start' hops', start'.1 = wallet → Ring g start' hops' →
    hops'.toFinset = hops.toFinset → g.adjacency.keys.idxOf start ≤ g.adjacency.keys.idxOf start'

/-- The wallet is searched if a cycle of it qualifies. The round trips that recover half from where
they are first entered pass no node twice, by a hop from a node to itself, and are not one hop too
long. Cycles that qualify from some node recover half from where they are first entered. -/
structure Regular (wallet : String) : Prop where
  searched : Exempt g wallet → ∀ hops, ¬ Qualifies g wallet hops
  simple : ¬ Exempt g wallet → ∀ start hops, EnteredAt g wallet start hops →
    1 / 2 ≤ recovery hops → (hops.map HopEdge.src).Nodup ∧ hops.length ≤ g.maxDepth
  entered : ¬ Exempt g wallet → ∀ start start' hops hops', EnteredAt g wallet start hops →
    start'.1 = wallet → SimpleCycle g start' hops' → 1 / 2 ≤ ratio hops' →
    hops'.toFinset = hops.toFinset → 1 / 2 ≤ recovery hops

variable {g} {wallet : String} {start : Node} {hops hops' : List HopEdge}

theorem half_le_ratio (h : 1 / 2 ≤ recovery hops) : 1 / 2 ≤ ratio hops := by
  have hpos : ¬ (1 / 2 : ℚ) ≤ 0 := by decide +kernel
  rw [recovery] at h
  rw [ratio]
  cases hfirst : hops.head? with
  | none =>
    rw [hfirst] at h
    exact absurd h hpos
  | some first =>
    cases hlast : hops.getLast? with
    | none =>
      rw [hfirst, hlast] at h
      exact absurd h hpos
    | some last =>
      rw [hfirst, hlast] at h
      simp only at h ⊢
      split_ifs at h
      · exact h
      · exact absurd h hpos

theorem SimpleCycle.ring (h : SimpleCycle g start hops) : Ring g start hops := by
  have hlong := h.long
  have hshort := h.short
  refine ⟨h.latest, h.linked, ?_, ?_, ?_, ?_⟩
  · rintro rfl
    rw [List.length_nil] at hlong
    omega
  · rw [List.length_nil]
    omega
  · rw [List.length_nil]
    omega
  rintro before e after rfl hafter
  cases after with
  | nil => exact absurd rfl hafter
  | cons next after =>
    have hnext : e.dst = next.src := linked_next h.linked
    have hsimple := h.simple
    rw [← List.singleton_append, ← List.append_assoc, List.map_append,
      List.nodup_append] at hsimple
    have hfresh : next.src ∉ (before ++ [e]).map HopEdge.src := fun hmem =>
      hsimple.2.2 _ hmem _ (List.mem_map_of_mem List.mem_cons_self) rfl
    have hstart : start ∈ (before ++ [e]).map HopEdge.src := by
      have hlinked := h.linked
      cases before with
      | nil =>
        rw [List.nil_append, List.map_cons, List.cons_append, List.cons.injEq] at hlinked
        exact List.mem_map.mpr ⟨e, List.mem_append_right _ (List.mem_singleton.mpr rfl), hlinked.1⟩
      | cons e₀ before =>
        rw [List.cons_append, List.map_cons, List.cons_append, List.cons.injEq] at hlinked
        exact List.mem_map.mpr ⟨e₀, List.mem_append_left _ List.mem_cons_self, hlinked.1⟩
    rw [hnext, List.nil_append]
    refine ⟨fun heq => hfresh (heq ▸ hstart), fun hmem => hfresh ?_⟩
    rw [List.map_append]
    exact List.mem_append_left _ hmem

theorem Ring.simpleCycle (h : Ring g start hops) (hsimple : (hops.map HopEdge.src).Nodup)
    (hshort : hops.length ≤ g.maxDepth) : SimpleCycle g start hops := by
  refine ⟨h.latest, h.linked, hsimple, ?_, hshort⟩
  have hlong := h.long
  rwa [List.length_nil, Nat.zero_add] at hlong

theorem closed_eq_nil (hg : g.Counted) (h : g.counters.walletEdges wallet = 0) :
    closed g wallet = [] := by
  refine List.eq_nil_iff_forall_not_mem.mpr fun r hr => ?_
  obtain ⟨hwallet, hring⟩ := (mem_closed_iff hg).mp hr
  obtain ⟨e, rest, hhops⟩ := List.exists_cons_of_ne_nil hring.nonempty
  have hfirst : r.2.head? = some e := by rw [hhops, List.head?_cons]
  obtain ⟨hmem, hsrc⟩ := hring.head_eq.mp hfirst
  have hlatest := hring.latest e hmem
  rw [latest] at hlatest
  have hstored : e ∈ g.adjacency.hops :=
    Adjacency.mem_hops.mpr ⟨_, _, List.mem_of_getLast? hlatest⟩
  rw [hg.walletEdges, Int.natCast_eq_zero, List.countP_eq_zero] at h
  refine h e hstored (decide_eq_true ?_)
  rw [← hwallet, ← hsrc, HopEdge.src]

theorem findCycles_eq (hg : g.Counted) (wallet : String) : findCycles g wallet =
    if Exempt g wallet then []
    else ((closed g wallet).foldl (fun (found : Found) r => found.close r.1 r.2)
        ⟨[], ∅⟩).cycles := by
  rw [findCycles, search_eq]
  by_cases h : g.counters.walletEdges wallet = 0
  · rw [if_pos h, closed_eq_nil hg h]
    split_ifs <;> rfl
  · rw [if_neg h]

theorem mem_findCycles (hg : g.Counted) (hsearched : ¬ Exempt g wallet) {c : PathPaymentCycle} :
    c ∈ findCycles g wallet ↔ ∃ start hops, FirstIn (closed g wallet) (start, hops) ∧
      1 / 2 ≤ recovery hops ∧ c = cycleOf start hops := by
  rw [findCycles_eq hg, if_neg hsearched, (closed_foldl _).cycles, Prod.exists]

theorem FirstIn.enteredAt (hg : g.Counted) (h : FirstIn (closed g wallet) (start, hops)) :
    EnteredAt g wallet start hops := by
  obtain ⟨hhome, hring⟩ := (mem_closed_iff hg).mp h.mem
  refine ⟨hhome, hring, fun start' hops' hhome' hring' heq => ?_⟩
  have hmem : (start', hops') ∈ closed g wallet := (mem_closed_iff hg).mpr ⟨hhome', hring'⟩
  obtain ⟨before, after, hclosed, hfirst⟩ := h
  have hsorted := closed_sorted (g := g) wallet
  rw [hclosed] at hmem hsorted
  rcases List.mem_append.mp hmem with hbefore | hafter
  · exact absurd heq (hfirst _ hbefore)
  · rcases List.mem_cons.mp hafter with hhere | hafter
    · rw [(Prod.mk.inj hhere).1]
    · exact List.rel_of_pairwise_cons (List.pairwise_append.mp hsorted).2.1 hafter

theorem EnteredAt.start_eq {start' : Node} (h : EnteredAt g wallet start hops)
    (h' : EnteredAt g wallet start' hops') (heq : hops.toFinset = hops'.toFinset) :
    start = start' := by
  have hle := h.first start' hops' h'.home h'.ring heq.symm
  have hle' := h'.first start hops h.home h.ring heq
  exact (List.idxOf_inj h.ring.mem_keys).mp (le_antisymm hle hle')

theorem exists_firstIn_closed (hg : g.Counted) (hhome : start.1 = wallet)
    (hring : Ring g start hops) : ∃ start' hops',
      FirstIn (closed g wallet) (start', hops') ∧ hops'.toFinset = hops.toFinset := by
  obtain ⟨r, hfirst, heq⟩ := exists_firstIn ((mem_closed_iff (r := (start, hops)) hg).mpr
    ⟨hhome, hring⟩)
  exact ⟨r.1, r.2, hfirst, heq⟩

theorem exact_iff_regular (hg : g.Counted) (wallet : String) :
    Exact g wallet (findCycles g wallet) ↔ Regular g wallet := by
  by_cases hexempt : Exempt g wallet
  · have hnone : findCycles g wallet = [] := by rw [findCycles_eq hg, if_pos hexempt]
    rw [hnone]
    constructor
    · rintro ⟨-, hcomplete, -⟩
      refine ⟨fun _ hops hqualifies => ?_, fun h => absurd hexempt h, fun h => absurd hexempt h⟩
      obtain ⟨c, hc, -⟩ := hcomplete hops hqualifies
      cases hc
    · rintro ⟨hsearched, -, -⟩
      refine ⟨fun c hc => absurd hc List.not_mem_nil, fun hops hqualifies => ?_, List.nodup_nil⟩
      exact absurd hqualifies (hsearched hexempt hops)
  constructor
  · rintro ⟨hsound, hcomplete, -⟩
    refine ⟨fun h => absurd h hexempt, fun _ start hops hentered hhalf => ?_,
      fun _ start start' hops hops' hentered hhome' hcycle hhalf heq => ?_⟩
    · obtain ⟨start₀, hops₀, hfirst, heq⟩ := exists_firstIn_closed hg hentered.home hentered.ring
      have hentered₀ := hfirst.enteredAt hg
      obtain rfl := hentered₀.start_eq hentered heq
      rw [hentered.ring.recovery_eq hentered₀.ring heq.symm] at hhalf
      have hreported := (mem_findCycles hg hexempt).mpr ⟨start₀, hops₀, hfirst, hhalf, rfl⟩
      obtain ⟨start₁, -, hcycle, -⟩ := hsound _ hreported
      have hperm : hops₀.Perm hops :=
        List.perm_of_nodup_nodup_toFinset_eq hentered₀.ring.nodup hentered.ring.nodup heq
      exact ⟨(hperm.map _).nodup_iff.mp hcycle.simple, hperm.length_eq ▸ hcycle.short⟩
    · obtain ⟨c, hc, hset⟩ := hcomplete hops' ⟨start', hhome', hcycle, hhalf⟩
      obtain ⟨start₀, hops₀, hfirst, hhalf₀, rfl⟩ := (mem_findCycles hg hexempt).mp hc
      have hentered₀ := hfirst.enteredAt hg
      have heq₀ : hops₀.toFinset = hops.toFinset := hset.trans heq
      obtain rfl := hentered₀.start_eq hentered heq₀
      rwa [hentered.ring.recovery_eq hentered₀.ring heq₀.symm]
  · rintro ⟨-, hsimple, hhalves⟩
    refine ⟨fun c hc => ?_, fun hops ⟨start, hhome, hcycle, hhalf⟩ => ?_, ?_⟩
    · obtain ⟨start, hops, hfirst, hhalf, rfl⟩ := (mem_findCycles hg hexempt).mp hc
      have hentered := hfirst.enteredAt hg
      obtain ⟨hnodup, hshort⟩ := hsimple hexempt start hops hentered hhalf
      exact ⟨start, hentered.home, hentered.ring.simpleCycle hnodup hshort, half_le_ratio hhalf⟩
    · obtain ⟨start₀, hops₀, hfirst, heq⟩ := exists_firstIn_closed hg hhome hcycle.ring
      have hhalf₀ := hhalves hexempt start₀ start hops₀ hops
        (hfirst.enteredAt hg) hhome hcycle hhalf
        heq.symm
      exact ⟨_, (mem_findCycles hg hexempt).mpr ⟨start₀, hops₀, hfirst, hhalf₀, rfl⟩, heq⟩
    · rw [findCycles_eq hg, if_neg hexempt]
      exact (closed_foldl _).once

end Exactness

section Results

/-- Whatever hops were added, the cycles reported for a wallet are those that qualify if and only if
the wallet is regular. -/
theorem findCycles_exact_iff (window : ℚ) (depth : ℤ) (es : List HopEdge) (wallet : String) :
    let g := (Graph.init window depth).addHops es
    Exact g wallet (findCycles g wallet) ↔ Regular g wallet :=
  exact_iff_regular ((counted_init window depth).addHops es) wallet

end Results

section Examples

def fourHops : List HopEdge :=
  [⟨"A", "XLM", "B", "XLM", 10, 0, "op-1"⟩, ⟨"B", "XLM", "C", "XLM", 10, 10, "op-2"⟩,
    ⟨"C", "XLM", "D", "XLM", 10, 20, "op-3"⟩, ⟨"D", "XLM", "A", "XLM", 10, 30, "op-4"⟩]

/-- With a depth of three the round trip of four hops is reported. -/
theorem fourHops_not_exact : ¬ Exact ((Graph.init 3600 3).addHops fourHops) "A"
    (findCycles ((Graph.init 3600 3).addHops fourHops) "A") := by
  intro hexact
  have hreported : cycleOf ("A", "XLM") fourHops ∈
      findCycles ((Graph.init 3600 3).addHops fourHops) "A" := by decide +kernel
  obtain ⟨start, -, hcycle, -⟩ := hexact.sound _ hreported
  exact absurd hcycle.short (by decide +kernel)

end Examples

end PathPaymentCycles
