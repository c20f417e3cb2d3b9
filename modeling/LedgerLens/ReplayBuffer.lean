import LedgerLens.HorizonTrades
import LedgerLens.LabelledRuns
import Mathlib.Data.List.Sort
import Mathlib.Data.Prod.Lex
import Mathlib.Data.String.Basic

/-!
# The replay buffer of order book events

`OrderBookReplayBuffer` of `ingestion/replay_buffer.py`. The heap and the two dictionaries hold the
same tokens, so one list has them with their events and times, in the order of the heap. Events
come out in that order whatever their times; what an event may find already emitted decides
between a stream in order and one that goes backwards.
-/
namespace ReplayBuffer

open LabelledRuns

/-- The regime, the numeric value and the text of a token, compared in this order. -/
abbrev SortKey := ℕ ×ₗ ℤ ×ₗ String

def SortKey.regime (key : SortKey) : ℕ := (ofLex key).1
def SortKey.number (key : SortKey) : ℤ := (ofLex (ofLex key).2).1

structure OrderBookEvent (Body : Type) where
  id : String
  body : Body
  deriving DecidableEq

structure Buffered (Body : Type) where
  event : OrderBookEvent Body
  ingestedAt : ℚ
  deriving DecidableEq

section

variable (int : String → Option ℤ) {Body : Type}

def sortKey (token : String) : SortKey :=
  match int token with
  | some n => toLex (0, toLex (n, ""))
  | none => toLex (1, toLex (0, token))

/-- What the heap compares. -/
def entry (token : String) : SortKey ×ₗ String := toLex (sortKey int token, token)

structure Buffer (Body : Type) where
  maxSize : ℤ
  gapTimeout : ℚ
  buffered : List (Buffered Body)
  lastEmittedKey : Option SortKey
  sorted : buffered.Pairwise fun a b => entry int a.event.id < entry int b.event.id

end

variable {int : String → Option ℤ} {Body : Type}

theorem entry_inj {token token' : String} (h : entry int token = entry int token') :
    token = token' :=
  (Prod.mk.inj (toLex.injective h)).2

theorem entry_lt {a b : Buffered Body} (h : entry int a.event.id < entry int b.event.id) :
    sortKey int a.event.id ≤ sortKey int b.event.id :=
  Prod.Lex.monotone_fst _ _ h.le

theorem sortKey_regime {token : String} {n : ℤ} (h : int token = some n) :
    (sortKey int token).regime = 0 ∧ (sortKey int token).number = n := by
  rw [sortKey, h]
  exact ⟨rfl, rfl⟩

theorem SortKey.regime_le {key key' : SortKey} (h : key ≤ key') : key.regime ≤ key'.regime :=
  Prod.Lex.monotone_fst _ _ h

theorem SortKey.number_le {key key' : SortKey} (h : key ≤ key')
    (hregime : key'.regime ≤ key.regime) : key.number ≤ key'.number := by
  rcases Prod.Lex.le_iff.mp h with hlt | ⟨-, hle⟩
  · exact absurd hlt hregime.not_gt
  · exact Prod.Lex.monotone_fst _ _ hle

namespace Buffer

def init (maxSize : ℤ) (gapTimeout : ℚ) : Buffer int Body where
  maxSize := maxSize
  gapTimeout := gapTimeout
  buffered := []
  lastEmittedKey := none
  sorted := .nil

def tokens (b : Buffer int Body) : List String := b.buffered.map fun e => e.event.id

def gap (lastEmittedKey : Option SortKey) (key : SortKey) : Prop :=
  match lastEmittedKey with
  | none => False
  | some last => key.regime = 0 ∧ last.number + 1 < key.number

instance (lastEmittedKey : Option SortKey) (key : SortKey) :
    Decidable (gap lastEmittedKey key) := by
  unfold gap
  cases lastEmittedKey <;> infer_instance

/-- `heappush`. -/
def push (int : String → Option ℤ) (e : Buffered Body) : List (Buffered Body) → List (Buffered Body)
  | [] => [e]
  | head :: rest =>
    if entry int e.event.id < entry int head.event.id then e :: head :: rest
    else head :: push int e rest

theorem push_perm (e : Buffered Body) (l : List (Buffered Body)) :
    (push int e l).Perm (e :: l) := by
  induction l with
  | nil => exact .refl _
  | cons head rest ih =>
    rw [push]
    split_ifs
    · exact .refl _
    · exact (ih.cons head).trans (.swap _ _ _)

theorem mem_push {e e' : Buffered Body} {l : List (Buffered Body)} :
    e' ∈ push int e l ↔ e' = e ∨ e' ∈ l := by
  rw [(push_perm e l).mem_iff, List.mem_cons]

theorem push_sorted {e : Buffered Body} {l : List (Buffered Body)}
    (hsorted : l.Pairwise fun a b => entry int a.event.id < entry int b.event.id)
    (hnew : e.event.id ∉ l.map fun e => e.event.id) :
    (push int e l).Pairwise fun a b => entry int a.event.id < entry int b.event.id := by
  induction l with
  | nil => exact List.pairwise_singleton _ _
  | cons head rest ih =>
    rw [List.map_cons, List.mem_cons, not_or] at hnew
    obtain ⟨hhead, hrest⟩ := List.pairwise_cons.mp hsorted
    rw [push]
    split_ifs with hlt
    · rw [List.pairwise_cons]
      refine ⟨fun e' he' => ?_, hsorted⟩
      rcases List.mem_cons.mp he' with rfl | he'
      · exact hlt
      · exact hlt.trans (hhead e' he')
    · rw [List.pairwise_cons]
      refine ⟨fun e' he' => ?_, ih hrest hnew.2⟩
      rcases mem_push.mp he' with rfl | he'
      · exact lt_of_le_of_ne (not_lt.mp hlt) fun heq => hnew.1 (entry_inj heq).symm
      · exact hhead e' he'

/-- `_expire_all`: every buffered event is taken for timed out. -/
def expireAll (b : Buffer int Body) (now : ℚ) : Buffer int Body :=
  { b with
    buffered := b.buffered.map fun e => { e with ingestedAt := now - b.gapTimeout - 1 }
    sorted := List.pairwise_map.mpr b.sorted }

def ingest (b : Buffer int Body) (event : OrderBookEvent Body) (now now' : ℚ) : Buffer int Body :=
  if h : event.id ∈ b.tokens then b
  else
    let pushed : Buffer int Body :=
      { b with
        buffered := push int ⟨event, now⟩ b.buffered
        sorted := push_sorted b.sorted h }
    if b.maxSize ≤ pushed.buffered.length then pushed.expireAll now' else pushed

/-- The loop of `drain`: the emitted events, what stays, and the last emitted key. -/
def drainFrom (int : String → Option ℤ) (gapTimeout now : ℚ) :
    Option SortKey → List (Buffered Body) →
      List (OrderBookEvent Body) × List (Buffered Body) × Option SortKey
  | last, [] => ([], [], last)
  | last, e :: rest =>
    let key := sortKey int e.event.id
    if ¬ gapTimeout ≤ now - e.ingestedAt ∧ gap last key then ([], e :: rest, last)
    else
      let out := drainFrom int gapTimeout now (some key) rest
      (e.event :: out.1, out.2.1, out.2.2)

def timeoutFires (int : String → Option ℤ) (gapTimeout now : ℚ) :
    Option SortKey → List (Buffered Body) → Bool
  | _, [] => false
  | last, e :: rest =>
    let key := sortKey int e.event.id
    if gap last key then gapTimeout ≤ now - e.ingestedAt
    else timeoutFires int gapTimeout now (some key) rest

def lastKey (int : String → Option ℤ) (last : Option SortKey) :
    List (Buffered Body) → Option SortKey
  | [] => last
  | e :: rest => lastKey int (some (sortKey int e.event.id)) rest

theorem lastKey_eq (last : Option SortKey) (l : List (Buffered Body)) :
    lastKey int last l = (l.map fun e => sortKey int e.event.id).getLast?.or last := by
  induction l generalizing last with
  | nil => rfl
  | cons e rest ih =>
    rw [lastKey, ih, List.map_cons, List.getLast?_cons]
    cases (rest.map fun e => sortKey int e.event.id).getLast? <;> rfl

theorem drainFrom_spec (gapTimeout now : ℚ) (last : Option SortKey) (l : List (Buffered Body)) :
    ∃ taken, l = taken ++ (drainFrom int gapTimeout now last l).2.1 ∧
      (drainFrom int gapTimeout now last l).1 = taken.map Buffered.event ∧
      (drainFrom int gapTimeout now last l).2.2 = lastKey int last taken ∧
      ∀ e ∈ (drainFrom int gapTimeout now last l).2.1.head?,
        gap (drainFrom int gapTimeout now last l).2.2 (sortKey int e.event.id) := by
  induction l generalizing last with
  | nil => exact ⟨[], rfl, rfl, rfl, fun e he => nomatch he⟩
  | cons e rest ih =>
    rw [drainFrom]
    simp only
    split_ifs with hheld
    · refine ⟨[], rfl, rfl, rfl, fun e' he' => ?_⟩
      obtain rfl := Option.some.inj he'
      exact hheld.2
    · obtain ⟨taken, hsplit, hbatch, hlast, hgap⟩ := ih (some (sortKey int e.event.id))
      refine ⟨e :: taken, congrArg (e :: ·) hsplit, congrArg (e.event :: ·) hbatch, hlast, hgap⟩

def drain (b : Buffer int Body) (now : ℚ) : List (OrderBookEvent Body) × Buffer int Body :=
  let out := drainFrom int b.gapTimeout now b.lastEmittedKey b.buffered
  (out.1,
    { b with
      buffered := out.2.1
      lastEmittedKey := out.2.2
      sorted := by
        obtain ⟨taken, hsplit, -⟩ := drainFrom_spec b.gapTimeout now b.lastEmittedKey b.buffered
        have hsorted := b.sorted
        rw [hsplit] at hsorted
        exact (List.pairwise_append.mp hsorted).2.1 })

def flushAll (b : Buffer int Body) : List (OrderBookEvent Body) × Buffer int Body :=
  (b.buffered.map Buffered.event,
    { b with
      buffered := []
      lastEmittedKey := lastKey int b.lastEmittedKey b.buffered
      sorted := .nil })

theorem ingest_cases (b : Buffer int Body) (event : OrderBookEvent Body) (now now' : ℚ) :
    b.ingest event now now' = b ∨
      event.id ∉ b.tokens ∧ (b.ingest event now now').lastEmittedKey = b.lastEmittedKey ∧
        ∀ e ∈ (b.ingest event now now').buffered,
          e.event = event ∨ ∃ e' ∈ b.buffered, e'.event = e.event := by
  by_cases hbuffered : event.id ∈ b.tokens
  · rw [ingest, dif_pos hbuffered]
    exact .inl rfl
  · rw [ingest, dif_neg hbuffered]
    simp only
    split
    · refine .inr ⟨hbuffered, rfl, fun e he => ?_⟩
      obtain ⟨e', he', rfl⟩ := List.mem_map.mp he
      rcases mem_push.mp he' with rfl | he'
      · exact .inl rfl
      · exact .inr ⟨e', he', rfl⟩
    · refine .inr ⟨hbuffered, rfl, fun e he => ?_⟩
      rcases mem_push.mp he with rfl | he
      · exact .inl rfl
      · exact .inr ⟨e, he, rfl⟩

/-- `drain` and `flushAll` emit a first part of the buffer. -/
structure Emits (b : Buffer int Body) (batch : List (OrderBookEvent Body)) (b' : Buffer int Body)
    (taken : List (Buffered Body)) : Prop where
  split : b.buffered = taken ++ b'.buffered
  batch_eq : batch = taken.map Buffered.event
  last : b'.lastEmittedKey = lastKey int b.lastEmittedKey taken

theorem drain_emits (b : Buffer int Body) (now : ℚ) :
    ∃ taken, Emits b (b.drain now).1 (b.drain now).2 taken ∧
      ∀ e ∈ (b.drain now).2.buffered.head?,
        gap (b.drain now).2.lastEmittedKey (sortKey int e.event.id) := by
  obtain ⟨taken, hsplit, hbatch, hlast, hgap⟩ :=
    drainFrom_spec b.gapTimeout now b.lastEmittedKey b.buffered
  exact ⟨taken, ⟨hsplit, hbatch, hlast⟩, hgap⟩

theorem flushAll_emits (b : Buffer int Body) :
    Emits b b.flushAll.1 b.flushAll.2 b.buffered :=
  ⟨(List.append_nil _).symm, rfl, rfl⟩

end Buffer

open Buffer

inductive Label (Body : Type) where
  | ingest (event : OrderBookEvent Body) (now now' : ℚ)
  | drain (now : ℚ)
  | flushAll

/-- The buffer, the batches that came out of it, one after the other, and whether a timeout has
released an event since the start. -/
structure System (int : String → Option ℤ) (Body : Type) where
  buffer : Buffer int Body
  emitted : List (OrderBookEvent Body)
  fired : Bool

namespace System

def start (maxSize : ℤ) (gapTimeout : ℚ) : System int Body where
  buffer := .init maxSize gapTimeout
  emitted := []
  fired := false

def next (s : System int Body) : Label Body → System int Body
  | .ingest event now now' => { s with buffer := s.buffer.ingest event now now' }
  | .drain now =>
    { buffer := (s.buffer.drain now).2
      emitted := s.emitted ++ (s.buffer.drain now).1
      fired := s.fired ||
        timeoutFires int s.buffer.gapTimeout now s.buffer.lastEmittedKey s.buffer.buffered }
  | .flushAll =>
    { s with
      buffer := s.buffer.flushAll.2
      emitted := s.emitted ++ s.buffer.flushAll.1 }

def Step (s : System int Body) (l : Label Body) (t : System int Body) : Prop := t = s.next l

/-- Every token is emitted once, and, as long as no timeout fires, in increasing order. -/
def InOrder (s : System int Body) : Prop :=
  (s.emitted.map OrderBookEvent.id).Nodup ∧
    (s.fired = false → s.emitted.Pairwise fun a b => entry int a.id < entry int b.id)

/-- An event that is let into the buffer was not emitted before and, as long as no timeout has
fired, comes after every emitted one. -/
def Ahead (s : System int Body) : Label Body → Prop
  | .ingest event _ _ => event.id ∉ s.buffer.tokens →
    event.id ∉ s.emitted.map OrderBookEvent.id ∧
      (s.fired = false → ∀ e ∈ s.emitted, entry int e.id < entry int event.id)
  | _ => True

structure OrderInvariant (s : System int Body) : Prop where
  nodup : (s.emitted.map OrderBookEvent.id).Nodup
  fresh : ∀ e ∈ s.buffer.buffered, e.event.id ∉ s.emitted.map OrderBookEvent.id
  increasing : s.fired = false → s.emitted.Pairwise fun a b => entry int a.id < entry int b.id
  ahead : s.fired = false → ∀ e ∈ s.emitted, ∀ e' ∈ s.buffer.buffered,
    entry int e.id < entry int e'.event.id

theorem OrderInvariant.emit {s : System int Body} (h : OrderInvariant s)
    {batch : List (OrderBookEvent Body)} {b : Buffer int Body} {taken : List (Buffered Body)}
    (hemits : Emits s.buffer batch b taken) {fired : Bool}
    (hfired : fired = false → s.fired = false) :
    OrderInvariant { buffer := b, emitted := s.emitted ++ batch, fired := fired } := by
  have hsorted := s.buffer.sorted
  rw [hemits.split] at hsorted
  obtain ⟨htaken, -, hbetween⟩ := List.pairwise_append.mp hsorted
  have hmem (e : Buffered Body) (he : e ∈ taken ++ b.buffered) : e ∈ s.buffer.buffered :=
    hemits.split.symm ▸ he
  rw [hemits.batch_eq]
  constructor
  · rw [List.map_append, List.map_map, List.nodup_append]
    refine ⟨h.nodup, ?_, ?_⟩
    · apply List.pairwise_map.mpr
      apply htaken.imp
      intro e e' hlt heq
      rw [Function.comp_apply, Function.comp_apply] at heq
      rw [heq] at hlt
      exact lt_irrefl _ hlt
    · intro id hid id' hid' heq
      obtain ⟨e, he, rfl⟩ := List.mem_map.mp hid'
      rw [heq] at hid
      exact h.fresh e (hmem e (List.mem_append_left _ he)) hid
  · intro e he hid
    rw [List.map_append, List.mem_append, List.map_map] at hid
    rcases hid with hid | hid
    · exact h.fresh e (hmem e (List.mem_append_right _ he)) hid
    · obtain ⟨e', he', heq⟩ := List.mem_map.mp hid
      have hlt := hbetween e' he' e he
      rw [Function.comp_apply] at heq
      rw [heq] at hlt
      exact lt_irrefl _ hlt
  · intro hfalse
    rw [List.pairwise_append]
    refine ⟨h.increasing (hfired hfalse), List.pairwise_map.mpr htaken, ?_⟩
    intro e he event hevent
    obtain ⟨e', he', rfl⟩ := List.mem_map.mp hevent
    exact h.ahead (hfired hfalse) e he e' (hmem e' (List.mem_append_left _ he'))
  · intro hfalse e he e' he'
    rcases List.mem_append.mp he with he | he
    · exact h.ahead (hfired hfalse) e he e' (hmem e' (List.mem_append_right _ he'))
    · obtain ⟨e'', he'', rfl⟩ := List.mem_map.mp he
      exact hbetween e'' he'' e' he'

theorem OrderInvariant.ingest {s : System int Body} (h : OrderInvariant s)
    {event : OrderBookEvent Body} {now now' : ℚ} (hahead : s.Ahead (.ingest event now now')) :
    OrderInvariant (s.next (.ingest event now now')) := by
  rw [next]
  rcases ingest_cases s.buffer event now now' with hsame | ⟨hnew, -, hcases⟩
  · rw [hsame]
    exact h
  · obtain ⟨hfresh, hafter⟩ := hahead hnew
    refine ⟨h.nodup, fun e he => ?_, h.increasing, fun hfalse e he e' he' => ?_⟩
    · rcases hcases e he with heq | ⟨e', he', heq⟩
      · rw [heq]
        exact hfresh
      · rw [← heq]
        exact h.fresh e' he'
    · rcases hcases e' he' with heq | ⟨e'', he'', heq⟩
      · rw [heq]
        exact hafter hfalse e he
      · rw [← heq]
        exact h.ahead hfalse e he e'' he''

theorem OrderInvariant.step {s t : System int Body} {l : Label Body} (h : OrderInvariant s)
    (hstep : Step s l t) (hahead : s.Ahead l) : OrderInvariant t := by
  obtain rfl := hstep
  cases l with
  | ingest event now now' => exact h.ingest hahead
  | drain now =>
    obtain ⟨taken, hemits, -⟩ := drain_emits s.buffer now
    exact h.emit hemits fun hfalse => (Bool.or_eq_false_iff.mp hfalse).1
  | flushAll => exact h.emit (flushAll_emits s.buffer) id

theorem orderInvariant_start (maxSize : ℤ) (gapTimeout : ℚ) :
    OrderInvariant (start maxSize gapTimeout : System int Body) where
  nodup := .nil
  fresh _ he := nomatch he
  increasing _ := .nil
  ahead _ _ he := nomatch he

/-- Whatever the arrivals, drains and flushes, events that come in ahead of the emitted ones come
out once and in order. -/
theorem emits_in_order {maxSize : ℤ} {gapTimeout : ℚ} {ls : List (Label Body)}
    {s : System int Body}
    (h : Run (fun s l t => Step s l t ∧ s.Ahead l) (start maxSize gapTimeout) ls s) :
    InOrder s := by
  have hinvariant := h.invariant (I := OrderInvariant)
    (fun _ _ _ hbefore hstep => hbefore.step hstep.1 hstep.2)
    (orderInvariant_start maxSize gapTimeout)
  exact ⟨hinvariant.nodup, hinvariant.increasing⟩

def order (id : String) : OrderBookEvent Unit := ⟨id, ()⟩

def gapClosed : List (Label Unit) :=
  [.ingest (order "7") 0 0, .ingest (order "6") 1 1, .drain 2, .ingest (order "8") 3 3, .drain 4]

/-- What was emitted comes once more, after an event that should have come before it. -/
def tooLate : List (Label Unit) :=
  [.ingest (order "5") 0 0, .drain 1, .ingest (order "5") 2 2, .ingest (order "4") 2 2, .drain 3]

def ran (ls : List (Label Unit)) : System HorizonTrades.asciiBuiltins.int Unit :=
  ls.foldl next (start 1000 30)

instance (s : System int Body) (l : Label Body) : Decidable (s.Ahead l) := by
  unfold Ahead
  cases l <;> infer_instance

theorem gapClosed_ahead :
    (gapClosed.foldlM (fun (s : System HorizonTrades.asciiBuiltins.int Unit) l =>
      if s.Ahead l then some (s.next l) else none) (start 1000 30)).map
        (fun s => s.emitted.map OrderBookEvent.id) = some ["6", "7", "8"] := by
  decide +kernel

theorem emits_in_order_gapClosed : ∃ s : System HorizonTrades.asciiBuiltins.int Unit,
    s.emitted.map OrderBookEvent.id = ["6", "7", "8"] ∧ InOrder s := by
  obtain ⟨s, hrun, hids⟩ := Option.map_eq_some_iff.mp gapClosed_ahead
  refine ⟨s, hids, emits_in_order ((run_iff_foldlM.mpr hrun).mono ?_)⟩
  rintro s l t ⟨hnext, hahead⟩
  exact ⟨(Option.some.inj hnext).symm, hahead⟩

theorem ran_tooLate_ids : (ran tooLate).emitted.map OrderBookEvent.id = ["5", "4", "5"] := by
  decide +kernel

theorem emitted_token_comes_again :
    ∃ ls s, Run Step (start 1000 30 : System HorizonTrades.asciiBuiltins.int Unit) ls s ∧
      s.fired = false ∧ ¬ (s.emitted.map OrderBookEvent.id).Nodup ∧
      ¬ s.emitted.Pairwise fun a b =>
        entry HorizonTrades.asciiBuiltins.int a.id <
          entry HorizonTrades.asciiBuiltins.int b.id := by
  refine ⟨tooLate, ran tooLate, run_foldl next _ tooLate, by decide +kernel, ?_, by decide +kernel⟩
  rw [ran_tooLate_ids]
  simp

structure HeadInvariant (s : System int Body) : Prop where
  ascending : s.emitted.Pairwise fun a b => sortKey int a.id ≤ sortKey int b.id
  below : ∀ e ∈ s.emitted, ∀ e' ∈ s.buffer.buffered,
    sortKey int e.id ≤ sortKey int e'.event.id
  last : s.buffer.lastEmittedKey = (s.emitted.map fun e => sortKey int e.id).getLast?

def NotLate (s : System int Body) : Label Body → Prop
  | .ingest event _ _ => event.id ∉ s.buffer.tokens →
    ∀ e ∈ s.emitted, sortKey int e.id ≤ sortKey int event.id
  | _ => True

/-- Whenever the next drain comes, it returns every buffered event whose predecessor was emitted. -/
def Unheld (s : System int Body) : Prop :=
  ∀ now, ∀ e ∈ s.buffer.buffered, ∀ n, int e.event.id = some n →
    (∃ p ∈ s.emitted ++ (s.buffer.drain now).1, int p.id = some (n - 1)) →
    e.event ∈ (s.buffer.drain now).1

theorem HeadInvariant.emit {s : System int Body} (h : HeadInvariant s)
    {batch : List (OrderBookEvent Body)} {b : Buffer int Body} {taken : List (Buffered Body)}
    (hemits : Emits s.buffer batch b taken) (fired : Bool) :
    HeadInvariant { buffer := b, emitted := s.emitted ++ batch, fired := fired } := by
  have hsorted := s.buffer.sorted.imp entry_lt
  rw [hemits.split] at hsorted
  obtain ⟨htaken, -, hbetween⟩ := List.pairwise_append.mp hsorted
  have hmem (e : Buffered Body) (he : e ∈ taken ++ b.buffered) : e ∈ s.buffer.buffered :=
    hemits.split.symm ▸ he
  rw [hemits.batch_eq]
  constructor
  · rw [List.pairwise_append]
    refine ⟨h.ascending, List.pairwise_map.mpr htaken, ?_⟩
    intro e he event hevent
    obtain ⟨e', he', rfl⟩ := List.mem_map.mp hevent
    exact h.below e he e' (hmem e' (List.mem_append_left _ he'))
  · intro e he e' he'
    rcases List.mem_append.mp he with he | he
    · exact h.below e he e' (hmem e' (List.mem_append_right _ he'))
    · obtain ⟨e'', he'', rfl⟩ := List.mem_map.mp he
      exact hbetween e'' he'' e' he'
  · rw [hemits.last, lastKey_eq, h.last, List.map_append, List.getLast?_append, List.map_map]
    rfl

theorem HeadInvariant.step {s t : System int Body} {l : Label Body} (h : HeadInvariant s)
    (hstep : Step s l t) (hlate : s.NotLate l) : HeadInvariant t := by
  obtain rfl := hstep
  cases l with
  | ingest event now now' =>
    rw [next]
    rcases ingest_cases s.buffer event now now' with hsame | ⟨hnew, hlast, hcases⟩
    · rw [hsame]
      exact h
    · refine ⟨h.ascending, fun e he e' he' => ?_, hlast.trans h.last⟩
      rcases hcases e' he' with heq | ⟨e'', he'', heq⟩
      · rw [heq]
        exact hlate hnew e he
      · rw [← heq]
        exact h.below e he e'' he''
  | drain now =>
    obtain ⟨taken, hemits, -⟩ := drain_emits s.buffer now
    exact h.emit hemits _
  | flushAll => exact h.emit (flushAll_emits s.buffer) s.fired

theorem headInvariant_start (maxSize : ℤ) (gapTimeout : ℚ) :
    HeadInvariant (start maxSize gapTimeout : System int Body) where
  ascending := .nil
  below _ he := nomatch he
  last := rfl

theorem HeadInvariant.le_last {s : System int Body} (h : HeadInvariant s) {key : SortKey}
    (hlast : s.buffer.lastEmittedKey = some key) :
    (∃ e ∈ s.emitted, sortKey int e.id = key) ∧ ∀ e ∈ s.emitted, sortKey int e.id ≤ key := by
  rw [h.last, List.getLast?_eq_some_iff] at hlast
  obtain ⟨keys, hkeys⟩ := hlast
  have hascending := List.pairwise_map.mpr h.ascending
  rw [hkeys] at hascending
  obtain ⟨-, -, hbetween⟩ := List.pairwise_append.mp hascending
  have hmem (e : OrderBookEvent Body) (he : e ∈ s.emitted) : sortKey int e.id ∈ keys ++ [key] :=
    hkeys ▸ List.mem_map_of_mem he
  constructor
  · have hkey : key ∈ s.emitted.map fun e => sortKey int e.id := by
      rw [hkeys]
      exact List.mem_append_right _ (List.mem_singleton_self key)
    obtain ⟨e, he, heq⟩ := List.mem_map.mp hkey
    exact ⟨e, he, heq⟩
  · intro e he
    rcases List.mem_append.mp (hmem e he) with hin | hin
    · exact hbetween _ hin key (List.mem_singleton_self key)
    · exact (List.mem_singleton.mp hin).le

theorem HeadInvariant.unheld {s : System int Body} (h : HeadInvariant s) : Unheld s := by
  intro now e he n hn ⟨p, hp, hpn⟩
  obtain ⟨taken, hemits, hgap⟩ := drain_emits s.buffer now
  have hafter := h.emit hemits s.fired
  rw [hemits.split] at he
  rcases List.mem_append.mp he with he | he
  · rw [hemits.batch_eq]
    exact List.mem_map_of_mem he
  · exfalso
    have hsorted := (s.buffer.drain now).2.sorted.imp entry_lt
    -- the drain stopped at a gap before the first event that stays
    obtain ⟨head, rest, hhead⟩ := List.exists_cons_of_ne_nil (List.ne_nil_of_mem he)
    rw [hhead] at he hsorted
    have hstop := hgap head (by rw [hhead]; rfl)
    obtain ⟨last, hlast⟩ : ∃ last, (s.buffer.drain now).2.lastEmittedKey = some last := by
      rcases heq : (s.buffer.drain now).2.lastEmittedKey with _ | last
      · rw [heq] at hstop
        exact hstop.elim
      · exact ⟨last, rfl⟩
    rw [hlast] at hstop
    obtain ⟨⟨q, hq, hkey⟩, hle⟩ := hafter.le_last hlast
    have hqhead := hafter.below q hq head (by rw [hhead]; exact List.mem_cons_self)
    rw [hkey] at hqhead
    have hheadle : sortKey int head.event.id ≤ sortKey int e.event.id := by
      rcases List.mem_cons.mp he with rfl | hin
      · exact le_rfl
      · exact (List.pairwise_cons.mp hsorted).1 e hin
    obtain ⟨hheadregime, hjump⟩ := hstop
    obtain ⟨hregime, hnumber⟩ := sortKey_regime hn
    obtain ⟨hpregime, hpnumber⟩ := sortKey_regime hpn
    have hlastregime := SortKey.regime_le hqhead
    have hheadnumber := SortKey.number_le hheadle (by omega)
    have hlastnumber := SortKey.number_le (hle p hp) (by omega)
    omega

/-- Whatever the arrivals, drains and flushes, where no event comes in late a gap that is closed
holds no event back. -/
theorem closed_gap_releases {maxSize : ℤ} {gapTimeout : ℚ} {ls : List (Label Body)}
    {s : System int Body}
    (h : Run (fun s l t => Step s l t ∧ s.NotLate l) (start maxSize gapTimeout) ls s) :
    Unheld s :=
  (h.invariant (I := HeadInvariant)
    (fun _ _ _ hbefore hstep => hbefore.step hstep.1 hstep.2)
    (headInvariant_start maxSize gapTimeout)).unheld

instance (s : System int Body) (l : Label Body) : Decidable (s.NotLate l) := by
  unfold NotLate
  cases l <;> infer_instance

theorem gapClosed_notLate :
    ((gapClosed.take 4).foldlM (fun (s : System HorizonTrades.asciiBuiltins.int Unit) l =>
      if s.NotLate l then some (s.next l) else none) (start 1000 30)).map
        (fun s => s.buffer.tokens) = some ["8"] := by
  decide +kernel

theorem closed_gap_releases_gapClosed : ∃ s : System HorizonTrades.asciiBuiltins.int Unit,
    s.buffer.tokens = ["8"] ∧ Unheld s := by
  obtain ⟨s, hrun, htokens⟩ := Option.map_eq_some_iff.mp gapClosed_notLate
  refine ⟨s, htokens, closed_gap_releases ((run_iff_foldlM.mpr hrun).mono ?_)⟩
  rintro s l t ⟨hnext, hlate⟩
  exact ⟨(Option.some.inj hnext).symm, hlate⟩

/-- The late event takes the last emitted key back, and the successor of the newest event waits. -/
def takenBack : List (Label Unit) :=
  [.ingest (order "5") 0 0, .ingest (order "6") 0 0, .drain 1, .ingest (order "3") 2 2, .drain 3,
    .ingest (order "7") 4 4]

theorem late_event_holds_back :
    ∃ ls s, Run Step (start 1000 30 : System HorizonTrades.asciiBuiltins.int Unit) ls s ∧
      ¬ Unheld s := by
  refine ⟨takenBack, ran takenBack, run_foldl next _ takenBack, fun hunheld => ?_⟩
  have hreleased := hunheld 5 ⟨order "7", 4⟩ (by decide +kernel) 7 (by decide +kernel)
    (by decide +kernel)
  revert hreleased
  decide +kernel

end System

end ReplayBuffer
