import LedgerLens.Dictionaries
import LedgerLens.LabelledRuns
import LedgerLens.WorklistSearch
import Mathlib.Data.List.Infix
import Mathlib.Data.List.Sort
import Mathlib.Data.String.Basic
import Mathlib.Logic.Function.Basic

/-!
# Lineage

`LineageEmitter` of `detection/lineage.py`, whose events go through a bounded queue to one worker
and from there to a table, and `get_lineage_graph`, which searches the graph of that table.
-/
namespace LineageGraph

open Dictionaries LabelledRuns WorklistSearch

structure Dataset where
  space : String
  name : String
  deriving DecidableEq

def Dataset.key (d : Dataset) : String := "dataset:" ++ d.space ++ ":" ++ d.name

inductive EventType where
  | start
  | complete
  | fail
  deriving DecidableEq

structure Event where
  eventType : EventType
  eventTime : String
  runId : String
  parentRunId : Option String
  jobSpace : String
  jobName : String
  inputs : List Dataset
  outputs : List Dataset
  deriving DecidableEq

def Event.jobKey (e : Event) : String := "job:" ++ e.jobSpace ++ ":" ++ e.jobName

inductive NodeType where
  | job
  | dataset
  deriving DecidableEq

structure Node where
  id : String
  type : NodeType
  name : String
  space : String
  deriving DecidableEq

def Dataset.node (d : Dataset) : Node := ⟨d.key, .dataset, d.name, d.space⟩

def Event.nodes (e : Event) : List Node :=
  ⟨e.jobKey, .job, e.jobName, e.jobSpace⟩ :: (e.inputs ++ e.outputs).map Dataset.node

def Event.edges (e : Event) : List (String × String) :=
  e.inputs.map (fun d => (d.key, e.jobKey)) ++ e.outputs.map fun d => (e.jobKey, d.key)

structure Graph where
  nodes : List Node
  edges : List (String × String)

def completed (rows : List Event) : List Event :=
  (rows.filter fun e => e.eventType = .complete).mergeSort fun a b =>
    decide (b.eventTime ≤ a.eventTime)

/-- A key that is described again has its last description. -/
def nodesOf (events : List Event) : Dictionary String Node :=
  Dictionary.empty.setAll ((events.flatMap Event.nodes).map fun n => (n.id, n))

def edgesOf (events : List Event) : List (String × String) :=
  (events.flatMap Event.edges).foldl (fun edges e => edges.insert e) []

def startKeys (nodes : Dictionary String Node) (datasetName : String) : List String :=
  (nodes.entries.filter fun e => e.2.type = .dataset ∧
    (e.2.name = datasetName ∨ datasetName.toList <:+: e.2.name.toList)).map Prod.fst

def link (adj : String → List String) (a b : String) : String → List String :=
  Function.update adj a ((adj a).insert b)

def adjacency (edges : List (String × String)) : String → List String :=
  edges.foldl (fun adj e => link (link adj e.1 e.2) e.2 e.1) fun _ => []

/-- None where the search takes more steps than there is fuel for, or visits no key of a node. -/
def getLineageGraph (fuel : ℕ) (rows : List Event) (datasetName : String) : Option Graph := do
  let events := completed rows
  let nodes := nodesOf events
  let edges := edgesOf events
  let start := startKeys nodes datasetName
  if start = [] then return ⟨[], []⟩
  let visited ← search (adjacency edges) fuel start start
  return ⟨← visited.mapM nodes.get?, edges.filter fun e => e.1 ∈ visited ∧ e.2 ∈ visited⟩

/-- A completed run reads or writes the one in the other. -/
def Edge (rows : List Event) (e : String × String) : Prop :=
  ∃ row ∈ rows, row.eventType = .complete ∧ e ∈ row.edges

def Joined (rows : List Event) (a b : String) : Prop := Edge rows (a, b) ∨ Edge rows (b, a)

def Named (rows : List Event) (datasetName key : String) : Prop :=
  ∃ n, (nodesOf (completed rows)).get? key = some n ∧ n.type = .dataset ∧
    datasetName.toList <:+: n.name.toList

section

variable {rows events : List Event} {edges : List (String × String)} {adj : String → List String}
  {nodes : Dictionary String Node} {datasetName a b k : String} {e : String × String} {n : Node}

theorem mem_completed {row : Event} :
    row ∈ completed rows ↔ row ∈ rows ∧ row.eventType = .complete := by
  rw [completed, List.mem_mergeSort, List.mem_filter, decide_eq_true_iff]

theorem foldl_insert_spec (es : List (String × String)) (h : edges.Nodup) :
    (es.foldl (fun edges e => edges.insert e) edges).Nodup ∧
      ∀ e, e ∈ es.foldl (fun edges e => edges.insert e) edges ↔ e ∈ edges ∨ e ∈ es := by
  induction es generalizing edges with
  | nil => simpa using h
  | cons e' es ih =>
    obtain ⟨hnodup, hmem⟩ := ih (h.insert (a := e'))
    refine ⟨hnodup, fun e => ?_⟩
    rw [List.foldl_cons, hmem, List.mem_insert_iff, List.mem_cons]
    tauto

theorem nodup_edgesOf : (edgesOf events).Nodup := (foldl_insert_spec _ .nil).1

theorem mem_edgesOf : e ∈ edgesOf (completed rows) ↔ Edge rows e := by
  rw [edgesOf, (foldl_insert_spec _ .nil).2, List.mem_flatMap]
  simp only [List.not_mem_nil, false_or, mem_completed, and_assoc]
  rfl

theorem mem_link {x : String} : b ∈ link adj a k x ↔ (x = a ∧ b = k) ∨ b ∈ adj x := by
  rw [link]
  by_cases hx : x = a
  · rw [hx, Function.update_self, List.mem_insert_iff]
    simp
  · rw [Function.update_of_ne hx]
    simp [hx]

theorem mem_foldl_link (es : List (String × String)) :
    b ∈ es.foldl (fun adj e => link (link adj e.1 e.2) e.2 e.1) adj a ↔
      (a, b) ∈ es ∨ (b, a) ∈ es ∨ b ∈ adj a := by
  induction es generalizing adj with
  | nil => simp
  | cons e es ih =>
    obtain ⟨x, y⟩ := e
    rw [List.foldl_cons, ih, mem_link, mem_link, List.mem_cons, List.mem_cons, Prod.mk.injEq,
      Prod.mk.injEq]
    tauto

theorem mem_adjacency : b ∈ adjacency (edgesOf (completed rows)) a ↔ Joined rows a b := by
  rw [adjacency, mem_foldl_link, mem_edgesOf, mem_edgesOf]
  simp [Joined]

theorem leads_iff : Leads (adjacency (edgesOf (completed rows))) a b ↔
    Relation.ReflTransGen (Joined rows) a b := by
  have hsame : (fun a b => b ∈ adjacency (edgesOf (completed rows)) a) = Joined rows := by
    funext a b
    exact propext mem_adjacency
  rw [Leads, hsame]

theorem get?_nodesOf (h : (nodesOf events).get? k = some n) :
    n.id = k ∧ ∃ row ∈ events, n ∈ row.nodes := by
  rcases Dictionary.mem_or_mem_of_mem_setAll (Dictionary.get?_eq_some.mp h) with hmem | hmem
  · obtain ⟨n', hn', heq⟩ := List.mem_map.mp hmem
    obtain ⟨hk, rfl⟩ := Prod.mk.inj heq
    exact ⟨hk, List.mem_flatMap.mp hn'⟩
  · cases hmem

theorem mem_keys_nodesOf :
    k ∈ (nodesOf events).keys ↔ ∃ row ∈ events, ∃ n ∈ row.nodes, n.id = k := by
  rw [nodesOf, Dictionary.mem_keys_setAll, List.map_map]
  constructor
  · rintro (hmem | hmem)
    · obtain ⟨n, hn, rfl⟩ := List.mem_map.mp hmem
      obtain ⟨row, hrow, hn⟩ := List.mem_flatMap.mp hn
      exact ⟨row, hrow, n, hn, rfl⟩
    · cases hmem
  · rintro ⟨row, hrow, n, hn, rfl⟩
    exact .inl (List.mem_map.mpr ⟨n, List.mem_flatMap.mpr ⟨row, hrow, hn⟩, rfl⟩)

theorem length_keys_nodesOf :
    (nodesOf events).keys.length ≤ (events.flatMap Event.nodes).length := by
  rw [← List.length_map Node.id]
  refine (Dictionary.nodup (nodesOf events)).subperm (fun k hk => ?_) |>.length_le
  obtain ⟨row, hrow, n, hn, rfl⟩ := mem_keys_nodesOf.mp hk
  exact List.mem_map_of_mem (List.mem_flatMap.mpr ⟨row, hrow, hn⟩)

theorem Edge.mem_keys (h : Edge rows e) :
    e.1 ∈ (nodesOf (completed rows)).keys ∧ e.2 ∈ (nodesOf (completed rows)).keys := by
  obtain ⟨row, hrow, hcomplete, hedge⟩ := h
  have hcompleted : row ∈ completed rows := mem_completed.mpr ⟨hrow, hcomplete⟩
  have hjob : row.jobKey ∈ (nodesOf (completed rows)).keys :=
    mem_keys_nodesOf.mpr ⟨row, hcompleted, _, List.mem_cons_self, rfl⟩
  have hdataset {d : Dataset} (hd : d ∈ row.inputs ++ row.outputs) :
      d.key ∈ (nodesOf (completed rows)).keys :=
    mem_keys_nodesOf.mpr ⟨row, hcompleted, d.node,
      List.mem_cons_of_mem _ (List.mem_map_of_mem hd), rfl⟩
  rcases List.mem_append.mp hedge with hedge | hedge
  · obtain ⟨d, hd, rfl⟩ := List.mem_map.mp hedge
    exact ⟨hdataset (List.mem_append_left _ hd), hjob⟩
  · obtain ⟨d, hd, rfl⟩ := List.mem_map.mp hedge
    exact ⟨hjob, hdataset (List.mem_append_right _ hd)⟩

theorem mem_startKeys :
    k ∈ startKeys (nodesOf (completed rows)) datasetName ↔ Named rows datasetName k := by
  unfold startKeys Named
  rw [List.mem_map]
  constructor
  · rintro ⟨⟨k', n⟩, hmem, rfl⟩
    obtain ⟨hentry, htest⟩ := List.mem_filter.mp hmem
    obtain ⟨htype, hname⟩ := of_decide_eq_true htest
    refine ⟨n, Dictionary.get?_eq_some.mpr hentry, htype, ?_⟩
    rcases hname with rfl | hname
    · exact List.infix_refl _
    · exact hname
  · rintro ⟨n, hget, htype, hname⟩
    exact ⟨(k, n), List.mem_filter.mpr
      ⟨Dictionary.get?_eq_some.mp hget, decide_eq_true ⟨htype, .inr hname⟩⟩, rfl⟩

theorem nodup_startKeys : (startKeys nodes datasetName).Nodup :=
  nodes.nodup.sublist (List.filter_sublist.map _)

theorem mapM_nodes {keys : List String} (h : keys ⊆ (nodesOf events).keys) :
    ∃ found, keys.mapM (nodesOf events).get? = some found ∧ found.map Node.id = keys ∧
      ∀ n ∈ found, ∃ row ∈ events, n ∈ row.nodes := by
  induction keys with
  | nil => exact ⟨[], rfl, rfl, nofun⟩
  | cons k keys ih =>
    obtain ⟨hk, hkeys⟩ := List.cons_subset.mp h
    obtain ⟨n, hn⟩ := Dictionary.mem_keys_iff.mp hk
    obtain ⟨found, hfound, hids, hrows⟩ := ih hkeys
    obtain ⟨hid, hrow⟩ := get?_nodesOf hn
    refine ⟨n :: found, ?_, by rw [List.map_cons, hid, hids], ?_⟩
    · rw [List.mapM_cons, hn, hfound]
      rfl
    · rintro m (_ | ⟨_, hm⟩)
      · exact hrow
      · exact hrows m hm

end

/-- The graph of a dataset is the part of the completed runs that is joined to a dataset whose name
contains the text, as a whole: every node of it once, and every edge that has an end in it. -/
theorem getLineageGraph_exact {fuel : ℕ} {rows : List Event} {datasetName : String}
    (hfuel : ((completed rows).flatMap Event.nodes).length ≤ fuel) :
    ∃ g, getLineageGraph fuel rows datasetName = some g ∧
      (g.nodes.map Node.id).Nodup ∧ g.edges.Nodup ∧
      (∀ n ∈ g.nodes, ∃ row ∈ rows, row.eventType = .complete ∧ n ∈ row.nodes) ∧
      (∀ k, k ∈ g.nodes.map Node.id ↔
        ∃ s, Named rows datasetName s ∧ Relation.ReflTransGen (Joined rows) s k) ∧
      ∀ e, (e ∈ g.edges ↔ Edge rows e ∧ e.1 ∈ g.nodes.map Node.id) ∧
        (e ∈ g.edges ↔ Edge rows e ∧ e.2 ∈ g.nodes.map Node.id) := by
  have hstart : startKeys (nodesOf (completed rows)) datasetName ⊆
      (nodesOf (completed rows)).keys := by
    intro k hk
    obtain ⟨n, hn, -⟩ := mem_startKeys.mp hk
    exact Dictionary.mem_keys_iff.mpr ⟨n, hn⟩
  have hadj : ∀ v ∈ (nodesOf (completed rows)).keys,
      adjacency (edgesOf (completed rows)) v ⊆ (nodesOf (completed rows)).keys := by
    intro v _ w hw
    rcases mem_adjacency.mp hw with hedge | hedge
    · exact hedge.mem_keys.2
    · exact hedge.mem_keys.1
  obtain ⟨visited, hsearch, hnodup, hmem⟩ :=
    search_exact nodup_startKeys hstart hadj (length_keys_nodesOf.trans hfuel)
  have hvisited (k : String) : k ∈ visited ↔
      ∃ s, Named rows datasetName s ∧ Relation.ReflTransGen (Joined rows) s k := by
    rw [hmem]
    simp only [mem_startKeys, leads_iff]
  have hkeys : visited ⊆ (nodesOf (completed rows)).keys := by
    intro k hk
    obtain ⟨s, hs, hleads⟩ := (hmem k).mp hk
    exact leads_subset hadj (hstart hs) hleads
  obtain ⟨found, hfound, hids, hrows⟩ := mapM_nodes hkeys
  have hclosed {e : String × String} (he : Edge rows e) : e.1 ∈ visited ↔ e.2 ∈ visited := by
    rw [hvisited, hvisited]
    exact ⟨fun ⟨s, hs, hpath⟩ => ⟨s, hs, hpath.tail (.inl he)⟩,
      fun ⟨s, hs, hpath⟩ => ⟨s, hs, hpath.tail (.inr he)⟩⟩
  have hedges (e : String × String) :
      e ∈ (edgesOf (completed rows)).filter (fun e => decide (e.1 ∈ visited ∧ e.2 ∈ visited)) ↔
        Edge rows e ∧ e.1 ∈ visited ∧ e.2 ∈ visited := by
    rw [List.mem_filter, mem_edgesOf, decide_eq_true_iff]
  have hgraph : getLineageGraph fuel rows datasetName = some ⟨found,
      (edgesOf (completed rows)).filter fun e => decide (e.1 ∈ visited ∧ e.2 ∈ visited)⟩ := by
    unfold getLineageGraph
    dsimp only
    split_ifs with hempty
    · -- Nothing is found from nowhere.
      rw [hempty] at hsearch
      have hnone : visited = [] := by cases fuel <;> exact (Option.some.inj hsearch).symm
      subst hnone
      obtain rfl : found = [] := List.map_eq_nil_iff.mp hids
      rw [List.filter_eq_nil_iff.mpr fun e _ he => by simp at he]
      rfl
    · rw [hsearch, Option.bind_eq_bind, Option.bind_some, hfound]
      rfl
  refine ⟨_, hgraph, hids.symm ▸ hnodup, nodup_edgesOf.filter _, fun n hn => ?_, ?_, fun e => ?_⟩
  · obtain ⟨row, hrow, hn⟩ := hrows n hn
    obtain ⟨hrow, hcomplete⟩ := mem_completed.mp hrow
    exact ⟨row, hrow, hcomplete, hn⟩
  · rw [hids]
    exact hvisited
  · rw [hids, hedges]
    constructor
    · exact and_congr_right fun he => and_iff_left_of_imp (hclosed he).mp
    · exact and_congr_right fun he => and_iff_right_of_imp (hclosed he).mpr

/-- A run that reads prices. -/
def trains : Event :=
  ⟨.complete, "2026-01-01T09:05:00+00:00", "r", none, "ledgerlens", "train", [⟨"db", "prices"⟩], []⟩

theorem getLineageGraph_exact_prices : ∃ g, getLineageGraph 2 [trains] "prices" = some g ∧
    (g.nodes.map Node.id).Nodup ∧ ∀ e, e ∈ g.edges ↔
      Edge [trains] e ∧ e.1 ∈ g.nodes.map Node.id := by
  have hfuel : ((completed [trains]).flatMap Event.nodes).length ≤ 2 := by
    simp [completed, trains, Event.nodes]
  obtain ⟨g, hgraph, hnodup, -, -, -, hedges⟩ :=
    @getLineageGraph_exact 2 [trains] "prices" hfuel
  exact ⟨g, hgraph, hnodup, fun e => (hedges e).1⟩

structure ActiveRun where
  jobName : String
  inputs : List Dataset
  outputs : List Dataset
  parentRunId : Option String

/-- A queue without a positive size has no bound. -/
structure Config where
  openlineageNamespace : String
  lineageQueueMaxsize : ℤ

/-- The runs that are active, the ids drawn, the queue, what the worker has in hand and the table.
The last three are what was emitted, dropped at the queue and lost at the table. -/
structure Emitter where
  runs : String → Option ActiveRun
  drawn : List String
  queue : List Event
  hand : Option Event
  rows : List Event
  emitted : List Event
  dropped : List Event
  lost : List Event

def Emitter.init : Emitter := ⟨fun _ => none, [], [], none, [], [], [], []⟩

def ActiveRun.event (cfg : Config) (run : ActiveRun) (runId : String) (eventType : EventType)
    (now : String) : Event where
  eventType := eventType
  eventTime := now
  runId := runId
  parentRunId := run.parentRunId.filter fun parent => parent ≠ ""
  jobSpace := cfg.openlineageNamespace
  jobName := run.jobName
  inputs := run.inputs
  outputs := run.outputs

def Emitter.emitEvent (cfg : Config) (s : Emitter) (e : Event) : Emitter :=
  if 0 < cfg.lineageQueueMaxsize ∧ cfg.lineageQueueMaxsize ≤ s.queue.length then
    { s with emitted := s.emitted ++ [e], dropped := s.dropped ++ [e] }
  else { s with emitted := s.emitted ++ [e], queue := s.queue ++ [e] }

/-- The body of a run may return or raise, and storing an event may fail. -/
inductive Turn where
  | enter (runId jobName : String) (inputs : List Dataset) (parentRunId : Option String)
      (now : String)
  | addInput (runId : String) (d : Dataset)
  | addOutput (runId : String) (d : Dataset)
  | leave (runId : String) (raises : Bool) (now : String)
  | take
  | store (fails : Bool)

def turn (cfg : Config) (s : Emitter) : Turn → Option Emitter
  | .enter runId jobName inputs parentRunId now =>
    let run : ActiveRun := ⟨jobName, inputs, [], parentRunId⟩
    if runId ∈ s.drawn then none
    else some ({ s with
      runs := Function.update s.runs runId (some run)
      drawn := runId :: s.drawn }.emitEvent cfg (run.event cfg runId .start now))
  | .addInput runId d =>
    (s.runs runId).map fun run =>
      { s with
        runs := Function.update s.runs runId (some { run with inputs := run.inputs ++ [d] }) }
  | .addOutput runId d =>
    (s.runs runId).map fun run =>
      { s with
        runs := Function.update s.runs runId (some { run with outputs := run.outputs ++ [d] }) }
  | .leave runId raises now =>
    (s.runs runId).map fun run =>
      { s with runs := Function.update s.runs runId none }.emitEvent cfg
        (run.event cfg runId (if raises then .fail else .complete) now)
  | .take =>
    match s.hand, s.queue with
    | none, e :: queue => some { s with hand := some e, queue := queue }
    | _, _ => none
  | .store fails =>
    s.hand.map fun e =>
      if fails then { s with hand := none, lost := s.lost ++ [e] }
      else { s with hand := none, rows := s.rows ++ [e] }

def Step (cfg : Config) (s : Emitter) (e : Turn) (t : Emitter) : Prop := turn cfg s e = some t

def Emitter.eventsOf (s : Emitter) (runId : String) : List Event :=
  s.emitted.filter fun e => e.runId = runId

def Ended (es : List Event) : Prop :=
  ∃ first last, es = [first, last] ∧ first.eventType = .start ∧ last.eventType ≠ .start ∧
    first.jobKey = last.jobKey ∧ first.parentRunId = last.parentRunId ∧
      first.inputs <+: last.inputs ∧ first.outputs = []

def Began (cfg : Config) (run : ActiveRun) (es : List Event) : Prop :=
  ∃ first, es = [first] ∧ first.eventType = .start ∧
    first.jobKey = (run.event cfg "" .start "").jobKey ∧
      first.parentRunId = (run.event cfg "" .start "").parentRunId ∧
        first.inputs <+: run.inputs ∧ first.outputs = []

structure Kept (cfg : Config) (s : Emitter) : Prop where
  order : (s.rows ++ s.hand.toList ++ s.queue).Sublist s.emitted
  count : (s.rows ++ s.hand.toList ++ s.queue ++ (s.dropped ++ s.lost)).Perm s.emitted
  bounded : 0 < cfg.lineageQueueMaxsize → s.queue.length ≤ cfg.lineageQueueMaxsize

structure Recorded (cfg : Config) (s : Emitter) : Prop where
  active : ∀ id run, s.runs id = some run → id ∈ s.drawn ∧ Began cfg run (s.eventsOf id)
  ended : ∀ id, s.runs id = none → id ∈ s.drawn → Ended (s.eventsOf id)
  unknown : ∀ id, id ∉ s.drawn → s.eventsOf id = []

section

variable {cfg : Config} {s t : Emitter} {e : Event} {es : List Turn} {id : String}

theorem Kept.emitEvent (h : Kept cfg s) (runs : String → Option ActiveRun) (drawn : List String) :
    Kept cfg ({ s with runs := runs, drawn := drawn }.emitEvent cfg e) := by
  unfold Emitter.emitEvent
  split_ifs with hfull
  · refine ⟨h.order.trans (List.sublist_append_left _ _), ?_, h.bounded⟩
    have hmoved : (s.dropped ++ [e] ++ s.lost).Perm (s.dropped ++ s.lost ++ [e]) := by
      rw [List.append_assoc, List.append_assoc]
      exact List.perm_append_comm.append_left _
    refine (hmoved.append_left _).trans ?_
    rw [← List.append_assoc]
    exact h.count.append_right _
  · refine ⟨?_, ?_, fun hpos => ?_⟩
    · rw [← List.append_assoc]
      exact h.order.append (List.Sublist.refl _)
    · refine List.Perm.trans ?_ (h.count.append_right [e])
      have hmoved : ([e] ++ (s.dropped ++ s.lost)).Perm (s.dropped ++ (s.lost ++ [e])) := by
        rw [← List.append_assoc s.dropped]
        exact List.perm_append_comm
      simpa [List.append_assoc] using
        ((hmoved.append_left s.queue).append_left s.hand.toList).append_left s.rows
    · have hroom : (s.queue.length : ℤ) < cfg.lineageQueueMaxsize :=
        not_le.mp (not_and.mp hfull hpos)
      change ((s.queue ++ [e]).length : ℤ) ≤ cfg.lineageQueueMaxsize
      rw [List.length_append, List.length_singleton]
      push_cast
      omega

theorem Kept.step {turn : Turn} (h : Kept cfg s) (hstep : Step cfg s turn t) : Kept cfg t := by
  cases turn with
  | enter runId jobName inputs parentRunId now =>
    unfold Step LineageGraph.turn at hstep
    dsimp only at hstep
    split_ifs at hstep
    cases hstep
    exact h.emitEvent _ _
  | addInput runId d =>
    obtain ⟨run, -, rfl⟩ := Option.map_eq_some_iff.mp hstep
    exact ⟨h.order, h.count, h.bounded⟩
  | addOutput runId d =>
    obtain ⟨run, -, rfl⟩ := Option.map_eq_some_iff.mp hstep
    exact ⟨h.order, h.count, h.bounded⟩
  | leave runId raises now =>
    obtain ⟨run, -, rfl⟩ := Option.map_eq_some_iff.mp hstep
    exact h.emitEvent _ _
  | take =>
    unfold Step LineageGraph.turn at hstep
    dsimp only at hstep
    split at hstep
    · rename_i e queue hhand hqueue
      cases hstep
      obtain ⟨horder, hcount, hbounded⟩ := h
      rw [hhand, hqueue] at horder hcount
      rw [hqueue] at hbounded
      refine ⟨?_, ?_, fun hpos => ?_⟩
      · simpa using horder
      · simpa using hcount
      · have := hbounded hpos
        rw [List.length_cons] at this
        push_cast at this
        dsimp only
        omega
    · cases hstep
  | store fails =>
    obtain ⟨e, hhand, rfl⟩ := Option.map_eq_some_iff.mp hstep
    obtain ⟨horder, hcount, hbounded⟩ := h
    rw [hhand, Option.toList_some] at horder hcount
    split_ifs
    · refine ⟨?_, ?_, hbounded⟩
      · refine List.Sublist.trans ?_ horder
        dsimp only
        rw [Option.toList_none, List.append_nil, List.append_assoc]
        exact (List.Sublist.refl _).append (List.sublist_append_right _ _)
      · refine List.Perm.trans ?_ hcount
        dsimp only
        rw [Option.toList_none, List.append_nil]
        have hmoved : (s.queue ++ (s.dropped ++ (s.lost ++ [e]))).Perm
            ([e] ++ (s.queue ++ (s.dropped ++ s.lost))) := by
          rw [← List.append_assoc, ← List.append_assoc, ← List.append_assoc s.queue]
          exact List.perm_append_comm
        simpa [List.append_assoc] using hmoved.append_left s.rows
    · refine ⟨?_, ?_, hbounded⟩
      · simpa using horder
      · simpa using hcount

@[simp] theorem emitEvent_runs : (s.emitEvent cfg e).runs = s.runs := by
  unfold Emitter.emitEvent
  split_ifs <;> rfl

@[simp] theorem emitEvent_drawn : (s.emitEvent cfg e).drawn = s.drawn := by
  unfold Emitter.emitEvent
  split_ifs <;> rfl

@[simp] theorem emitEvent_emitted : (s.emitEvent cfg e).emitted = s.emitted ++ [e] := by
  unfold Emitter.emitEvent
  split_ifs <;> rfl

theorem eventsOf_emitEvent : (s.emitEvent cfg e).eventsOf id =
    if e.runId = id then s.eventsOf id ++ [e] else s.eventsOf id := by
  unfold Emitter.eventsOf
  rw [emitEvent_emitted, List.filter_append, List.filter_singleton]
  split_ifs with hid
  · simp [hid]
  · simp [hid]

theorem Began.update {run run' : ActiveRun} {es : List Event} (h : Began cfg run es)
    (hname : run'.jobName = run.jobName) (hparent : run'.parentRunId = run.parentRunId)
    (hinputs : run.inputs <+: run'.inputs) : Began cfg run' es := by
  obtain ⟨first, rfl, htype, hjob, hfirst, hprefix, houtputs⟩ := h
  refine ⟨first, rfl, htype, ?_, ?_, hprefix.trans hinputs, houtputs⟩
  · rw [hjob]
    unfold ActiveRun.event Event.jobKey
    rw [hname]
  · rw [hfirst]
    unfold ActiveRun.event
    rw [hparent]

theorem Recorded.update (h : Recorded cfg s) {run run' : ActiveRun} (hrun : s.runs id = some run)
    (hname : run'.jobName = run.jobName) (hparent : run'.parentRunId = run.parentRunId)
    (hinputs : run.inputs <+: run'.inputs) :
    Recorded cfg { s with runs := Function.update s.runs id (some run') } := by
  obtain ⟨hdrawn, hbegan⟩ := h.active id run hrun
  refine ⟨fun id' run'' hactive => ?_, fun id' hended => ?_, h.unknown⟩
  · dsimp only at hactive
    rcases eq_or_ne id' id with rfl | hne
    · rw [Function.update_self] at hactive
      cases hactive
      exact ⟨hdrawn, hbegan.update hname hparent hinputs⟩
    · rw [Function.update_of_ne hne] at hactive
      exact h.active id' run'' hactive
  · dsimp only at hended
    have hne : id' ≠ id := by
      rintro rfl
      rw [Function.update_self] at hended
      cases hended
    rw [Function.update_of_ne hne] at hended
    exact h.ended id' hended

theorem Recorded.enter (h : Recorded cfg s) (hnew : id ∉ s.drawn) (jobName : String)
    (inputs : List Dataset) (parentRunId : Option String) (now : String) :
    Recorded cfg ({ s with
      runs := Function.update s.runs id (some ⟨jobName, inputs, [], parentRunId⟩)
      drawn := id :: s.drawn }.emitEvent cfg
        ((ActiveRun.mk jobName inputs [] parentRunId).event cfg id .start now)) := by
  have hevents (id' : String) : ({ s with
      runs := Function.update s.runs id (some ⟨jobName, inputs, [], parentRunId⟩)
      drawn := id :: s.drawn }.emitEvent cfg
        ((ActiveRun.mk jobName inputs [] parentRunId).event cfg id .start now)).eventsOf id' =
      if id = id' then s.eventsOf id' ++
        [(ActiveRun.mk jobName inputs [] parentRunId).event cfg id .start now]
      else s.eventsOf id' := eventsOf_emitEvent
  refine ⟨fun id' run hactive => ?_, fun id' hended hdrawn => ?_, fun id' hunknown => ?_⟩
  · rw [hevents]
    rw [emitEvent_runs] at hactive
    dsimp only at hactive
    rw [emitEvent_drawn]
    rcases eq_or_ne id' id with rfl | hne
    · rw [Function.update_self] at hactive
      cases hactive
      rw [if_pos rfl, h.unknown id' hnew]
      exact ⟨List.mem_cons_self, _, rfl, rfl, rfl, rfl, List.prefix_refl _, rfl⟩
    · rw [Function.update_of_ne hne] at hactive
      rw [if_neg hne.symm]
      obtain ⟨hdrawn, hbegan⟩ := h.active id' run hactive
      exact ⟨List.mem_cons_of_mem _ hdrawn, hbegan⟩
  · rw [emitEvent_runs] at hended
    dsimp only at hended
    rw [emitEvent_drawn] at hdrawn
    have hne : id' ≠ id := by
      rintro rfl
      rw [Function.update_self] at hended
      cases hended
    rw [Function.update_of_ne hne] at hended
    rw [hevents, if_neg hne.symm]
    exact h.ended id' hended ((List.mem_cons.mp hdrawn).resolve_left hne)
  · rw [emitEvent_drawn, List.mem_cons, not_or] at hunknown
    rw [hevents, if_neg (Ne.symm hunknown.1)]
    exact h.unknown id' hunknown.2

theorem Recorded.leave (h : Recorded cfg s) {run : ActiveRun} (hrun : s.runs id = some run)
    {eventType : EventType} (htype : eventType ≠ .start) (now : String) :
    Recorded cfg ({ s with runs := Function.update s.runs id none }.emitEvent cfg
      (run.event cfg id eventType now)) := by
  have hevents (id' : String) : ({ s with runs := Function.update s.runs id none }.emitEvent cfg
      (run.event cfg id eventType now)).eventsOf id' =
        if id = id' then s.eventsOf id' ++ [run.event cfg id eventType now]
        else s.eventsOf id' := eventsOf_emitEvent
  refine ⟨fun id' run' hactive => ?_, fun id' hended hdrawn => ?_, fun id' hunknown => ?_⟩
  · rw [emitEvent_runs] at hactive
    dsimp only at hactive
    have hne : id' ≠ id := by
      rintro rfl
      rw [Function.update_self] at hactive
      cases hactive
    rw [Function.update_of_ne hne] at hactive
    rw [hevents, if_neg hne.symm, emitEvent_drawn]
    exact h.active id' run' hactive
  · rw [emitEvent_drawn] at hdrawn
    rw [emitEvent_runs] at hended
    dsimp only at hended
    rw [hevents]
    rcases eq_or_ne id' id with rfl | hne
    · obtain ⟨-, first, hfirst, hstart, hjob, hparent, hprefix, houtputs⟩ := h.active id' run hrun
      rw [if_pos rfl, hfirst]
      exact ⟨first, _, rfl, hstart, htype, hjob, hparent, hprefix, houtputs⟩
    · rw [Function.update_of_ne hne] at hended
      rw [if_neg hne.symm]
      exact h.ended id' hended hdrawn
  · rw [emitEvent_drawn] at hunknown
    have hne : id ≠ id' := by
      rintro rfl
      exact hunknown (h.active id run hrun).1
    rw [hevents, if_neg hne]
    exact h.unknown id' hunknown

theorem Recorded.step {turn : Turn} (h : Recorded cfg s) (hstep : Step cfg s turn t) :
    Recorded cfg t := by
  cases turn with
  | enter runId jobName inputs parentRunId now =>
    unfold Step LineageGraph.turn at hstep
    dsimp only at hstep
    split_ifs at hstep with hnew
    cases hstep
    exact h.enter hnew jobName inputs parentRunId now
  | addInput runId d =>
    obtain ⟨run, hrun, rfl⟩ := Option.map_eq_some_iff.mp hstep
    exact h.update hrun rfl rfl (List.prefix_append _ _)
  | addOutput runId d =>
    obtain ⟨run, hrun, rfl⟩ := Option.map_eq_some_iff.mp hstep
    exact h.update hrun rfl rfl (List.prefix_refl _)
  | leave runId raises now =>
    obtain ⟨run, hrun, rfl⟩ := Option.map_eq_some_iff.mp hstep
    refine h.leave hrun ?_ now
    split_ifs <;> nofun
  | take =>
    unfold Step LineageGraph.turn at hstep
    dsimp only at hstep
    split at hstep
    · cases hstep
      exact ⟨h.active, h.ended, h.unknown⟩
    · cases hstep
  | store fails =>
    obtain ⟨e, -, rfl⟩ := Option.map_eq_some_iff.mp hstep
    split_ifs
    · exact ⟨h.active, h.ended, h.unknown⟩
    · exact ⟨h.active, h.ended, h.unknown⟩

theorem Kept.initial : Kept cfg .init where
  order := List.nil_sublist _
  count := List.Perm.refl _
  bounded hpos := hpos.le

theorem Recorded.initial : Recorded cfg .init where
  active _ _ hactive := by cases hactive
  ended _ _ hdrawn := absurd hdrawn List.not_mem_nil
  unknown _ _ := rfl

theorem Recorded.completed {row : Event} (h : Recorded cfg s) (hrow : row ∈ s.emitted)
    (hcomplete : row.eventType = .complete) : s.runs row.runId = none ∧
      Ended (s.eventsOf row.runId) ∧ (s.eventsOf row.runId).getLast? = some row := by
  have hmem : row ∈ s.eventsOf row.runId := List.mem_filter.mpr ⟨hrow, decide_eq_true rfl⟩
  cases hactive : s.runs row.runId with
  | some run =>
    obtain ⟨-, first, hfirst, hstart, -⟩ := h.active _ _ hactive
    rw [hfirst, List.mem_singleton] at hmem
    rw [← hmem, hcomplete] at hstart
    cases hstart
  | none =>
    by_cases hdrawn : row.runId ∈ s.drawn
    · have hended := h.ended _ hactive hdrawn
      refine ⟨rfl, hended, ?_⟩
      obtain ⟨first, last, hboth, hstart, -⟩ := hended
      rw [hboth, List.mem_pair] at hmem
      rcases hmem with rfl | rfl
      · rw [hcomplete] at hstart
        cases hstart
      · rw [hboth]
        rfl
    · rw [h.unknown _ hdrawn] at hmem
      cases hmem

end

/-- However the runs and the worker interleave, the table has the emitted events in their order and
each once, but for those dropped at the full queue and those that could not be stored, and all its
edges are of runs that began once and then completed. -/
theorem run_stored {cfg : Config} {s : Emitter} {es : List Turn}
    (hrun : Run (Step cfg) .init es s) :
    s.rows.Sublist s.emitted ∧
      (s.rows ++ s.hand.toList ++ s.queue ++ (s.dropped ++ s.lost)).Perm s.emitted ∧
      (0 < cfg.lineageQueueMaxsize → s.queue.length ≤ cfg.lineageQueueMaxsize) ∧
      ∀ e, Edge s.rows e → ∃ row ∈ s.rows, e ∈ row.edges ∧ row.eventType = .complete ∧
        s.runs row.runId = none ∧ Ended (s.eventsOf row.runId) ∧
          (s.eventsOf row.runId).getLast? = some row := by
  have hboth : Kept cfg s ∧ Recorded cfg s := by
    refine Run.invariant (I := fun s => Kept cfg s ∧ Recorded cfg s)
      (fun _ _ _ h hstep => ?_) hrun ⟨.initial, .initial⟩
    exact ⟨h.1.step hstep, h.2.step hstep⟩
  obtain ⟨hkept, hrecorded⟩ := hboth
  have hrows : s.rows.Sublist s.emitted := by
    refine List.Sublist.trans ?_ hkept.order
    rw [List.append_assoc]
    exact List.sublist_append_left _ _
  refine ⟨hrows, hkept.count, hkept.bounded, ?_⟩
  rintro e ⟨row, hrow, hcomplete, he⟩
  exact ⟨row, hrow, he, hcomplete, hrecorded.completed (hrows.subset hrow) hcomplete⟩

def config : Config := ⟨"ledgerlens", 1000⟩

/-- A run that completes, and one within it of which nothing can be stored. -/
def training : List Turn :=
  [.enter "r" "train" [⟨"db", "prices"⟩] none "09:00", .take, .addOutput "r" ⟨"models", "forest"⟩,
    .enter "q" "score" [] (some "r") "09:02", .store false, .leave "r" false "09:05", .take,
    .store true, .take, .store false]

theorem training_runs : (training.foldlM (turn config) .init).isSome := by decide +kernel

def trained : Emitter := (training.foldlM (turn config) .init).get training_runs

theorem run_stored_trained : trained.rows.length = 2 ∧ (∃ e, Edge trained.rows e) ∧
    trained.rows.Sublist trained.emitted ∧
    ∀ e, Edge trained.rows e → ∃ row ∈ trained.rows, e ∈ row.edges ∧ row.eventType = .complete ∧
      trained.runs row.runId = none ∧ Ended (trained.eventsOf row.runId) ∧
        (trained.eventsOf row.runId).getLast? = some row := by
  obtain ⟨hrows, -, -, hedges⟩ := run_stored (run_of_foldlM (Option.some_get training_runs).symm)
  refine ⟨by decide +kernel, ?_, hrows, hedges⟩
  refine ⟨("dataset:db:prices", "job:ledgerlens:train"), ?_⟩
  unfold Edge
  decide +kernel

end LineageGraph
