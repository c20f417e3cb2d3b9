import LedgerLens.HorizonStreamer
import Mathlib.Data.List.Infix

/-!
# The bounded trade queue

`BoundedTradeQueue` of `ingestion/horizon_streamer.py` on the event loop, with any number of
producers and consumers. A call runs without interruption up to its `await`; a producer of a
blocking queue that is full is suspended, and may be woken, in any order, or cancelled.
-/
namespace TradeQueue

open HorizonStreamer (OverflowStrategy)

def HIGH_WATER_RATIO : ℚ := 4 / 5

structure BoundedTradeQueue (Trade : Type) where
  maxsize : ℕ
  overflowStrategy : OverflowStrategy
  items : List Trade
  dropped : ℕ
  highWaterHits : ℕ
  maxsize_pos : 0 < maxsize
  bounded : items.length ≤ maxsize

variable {Trade : Type}

namespace BoundedTradeQueue

def init (maxsize : ℕ) (overflowStrategy : OverflowStrategy) (h : 0 < maxsize) :
    BoundedTradeQueue Trade where
  maxsize := maxsize
  overflowStrategy := overflowStrategy
  items := []
  dropped := 0
  highWaterHits := 0
  maxsize_pos := h
  bounded := Nat.zero_le _

def depth (q : BoundedTradeQueue Trade) : ℕ := q.items.length

def full (q : BoundedTradeQueue Trade) : Prop := q.maxsize ≤ q.depth

instance (q : BoundedTradeQueue Trade) : Decidable q.full := inferInstanceAs (Decidable (_ ≤ _))

def recordHighWater (q : BoundedTradeQueue Trade) : BoundedTradeQueue Trade :=
  if HIGH_WATER_RATIO ≤ (q.depth : ℚ) / q.maxsize then
    { q with highWaterHits := q.highWaterHits + 1 }
  else q

def putNowait (q : BoundedTradeQueue Trade) (trade : Trade) (h : ¬ q.full) :
    BoundedTradeQueue Trade :=
  { q with
    items := q.items ++ [trade]
    bounded := by
      rw [List.length_append, List.length_singleton]
      exact Nat.lt_of_not_le h }

def getNowait (q : BoundedTradeQueue Trade) : Option (Trade × BoundedTradeQueue Trade) :=
  match h : q.items with
  | [] => none
  | trade :: rest =>
    some (trade,
      { q with
        items := rest
        bounded := by
          have hbounded := q.bounded
          rw [h, List.length_cons] at hbounded
          omega })

def replaceOldest (q : BoundedTradeQueue Trade) (trade : Trade) : BoundedTradeQueue Trade :=
  { q with
    items := q.items.tail ++ [trade]
    dropped := q.dropped + 1
    bounded := by
      have hpos := q.maxsize_pos
      have hbounded := q.bounded
      rw [List.length_append, List.length_tail, List.length_singleton]
      omega }

/-- What `put` returns, and nothing where the producer is suspended. -/
def put (q : BoundedTradeQueue Trade) (trade : Trade) : Option (BoundedTradeQueue Trade × Bool) :=
  if h : q.full then
    match q.overflowStrategy with
    | .block => none
    | .dropNewest => some ({ q with dropped := q.dropped + 1 }.recordHighWater, false)
    | .dropOldest => some ((q.replaceOldest trade).recordHighWater, true)
  else some ((q.putNowait trade h).recordHighWater, true)

structure SameSettings (q q' : BoundedTradeQueue Trade) : Prop where
  maxsize : q'.maxsize = q.maxsize
  overflowStrategy : q'.overflowStrategy = q.overflowStrategy

theorem recordHighWater_spec (q : BoundedTradeQueue Trade) :
    SameSettings q q.recordHighWater ∧ q.recordHighWater.items = q.items ∧
      q.recordHighWater.dropped = q.dropped := by
  rw [recordHighWater]
  split_ifs
  · exact ⟨⟨rfl, rfl⟩, rfl, rfl⟩
  · exact ⟨⟨rfl, rfl⟩, rfl, rfl⟩

theorem put_cases {q q' : BoundedTradeQueue Trade} {trade : Trade} {kept : Bool}
    (h : q.put trade = some (q', kept)) : SameSettings q q' ∧
    ((q'.items = q.items ++ [trade] ∧ q'.dropped = q.dropped) ∨
      (q.overflowStrategy = .dropNewest ∧ q'.items = q.items ∧ q'.dropped = q.dropped + 1) ∨
      (q.overflowStrategy = .dropOldest ∧ (∃ oldest, q.items = oldest :: q.items.tail) ∧
        q'.items = q.items.tail ++ [trade] ∧ q'.dropped = q.dropped + 1)) := by
  rw [put] at h
  split_ifs at h with hfull
  · split at h
    · cases h
    · rename_i hstrategy
      obtain ⟨rfl, -⟩ := Prod.mk.inj (Option.some.inj h)
      obtain ⟨hsame, hitems, hdropped⟩ :=
        recordHighWater_spec { q with dropped := q.dropped + 1 }
      exact ⟨⟨hsame.maxsize, hsame.overflowStrategy⟩, .inr (.inl ⟨hstrategy, hitems, hdropped⟩)⟩
    · rename_i hstrategy
      obtain ⟨rfl, -⟩ := Prod.mk.inj (Option.some.inj h)
      obtain ⟨hsame, hitems, hdropped⟩ := recordHighWater_spec (q.replaceOldest trade)
      have hhead : ∃ oldest, q.items = oldest :: q.items.tail := by
        have hpos : 0 < q.items.length := lt_of_lt_of_le q.maxsize_pos hfull
        exact ⟨_, (List.cons_head_tail (List.ne_nil_of_length_pos hpos)).symm⟩
      exact ⟨⟨hsame.maxsize, hsame.overflowStrategy⟩,
        .inr (.inr ⟨hstrategy, hhead, hitems, hdropped⟩)⟩
  · obtain ⟨rfl, -⟩ := Prod.mk.inj (Option.some.inj h)
    obtain ⟨hsame, hitems, hdropped⟩ := recordHighWater_spec (q.putNowait trade hfull)
    exact ⟨⟨hsame.maxsize, hsame.overflowStrategy⟩, .inl ⟨hitems, hdropped⟩⟩

theorem getNowait_cases {q q' : BoundedTradeQueue Trade} {trade : Trade}
    (h : q.getNowait = some (trade, q')) :
    SameSettings q q' ∧ q.items = trade :: q'.items ∧ q'.dropped = q.dropped := by
  rw [getNowait] at h
  split at h
  · cases h
  · rename_i head rest hitems
    obtain ⟨rfl, rfl⟩ := Prod.mk.inj (Option.some.inj h)
    exact ⟨⟨rfl, rfl⟩, hitems, rfl⟩

def forget (q : BoundedTradeQueue ℕ) : HorizonStreamer.BoundedTradeQueue where
  maxsize := q.maxsize
  overflowStrategy := q.overflowStrategy
  items := q.items
  dropped := q.dropped
  maxsize_pos := q.maxsize_pos
  bounded := q.bounded

theorem forget_recordHighWater (q : BoundedTradeQueue ℕ) : q.recordHighWater.forget = q.forget := by
  rw [recordHighWater]
  split_ifs
  · rfl
  · rfl

theorem forget_put (q : BoundedTradeQueue ℕ) (index : ℕ) :
    (q.put index).map (fun out => (out.1.forget, out.2)) = q.forget.put index := by
  have hiff : q.forget.full ↔ q.full := Iff.rfl
  by_cases hfull : q.full
  · obtain ⟨maxsize, overflowStrategy, items, dropped, highWaterHits, hpos, hbounded⟩ := q
    rw [put, HorizonStreamer.BoundedTradeQueue.put, dif_pos hfull, dif_pos (hiff.mpr hfull)]
    cases overflowStrategy with
    | block => rfl
    | dropNewest =>
      simp only [Option.map_some, forget_recordHighWater]
      rfl
    | dropOldest =>
      simp only [Option.map_some, forget_recordHighWater]
      rfl
  · rw [put, HorizonStreamer.BoundedTradeQueue.put, dif_neg hfull, dif_neg (mt hiff.mp hfull),
      Option.map_some, forget_recordHighWater]
    rfl

end BoundedTradeQueue

/-- The queue and the trades of the suspended producers. `puts` lists the trades whose `put` has
returned, `delivered` those that a consumer got; calls of `put` and cancelled ones are counted. -/
structure System (Trade : Type) where
  queue : BoundedTradeQueue Trade
  waiting : List Trade
  puts : List Trade
  delivered : List Trade
  calls : ℕ
  cancelled : ℕ

inductive Label (Trade : Type) where
  | put (trade : Trade)
  | resume (index : ℕ)
  | cancel (index : ℕ)
  | get

namespace System

def start (queue : BoundedTradeQueue Trade) : System Trade where
  queue := queue
  waiting := []
  puts := []
  delivered := []
  calls := 0
  cancelled := 0

/-- A woken producer looks at the queue again. A `get` on an empty queue raises or is suspended,
and changes nothing. -/
def next (s : System Trade) : Label Trade → System Trade
  | .put trade =>
    match s.queue.put trade with
    | none => { s with waiting := s.waiting ++ [trade], calls := s.calls + 1 }
    | some (queue, _) => { s with queue := queue, puts := s.puts ++ [trade], calls := s.calls + 1 }
  | .resume index =>
    match s.waiting[index]? with
    | none => s
    | some trade =>
      match s.queue.put trade with
      | none => s
      | some (queue, _) =>
        { s with queue := queue, puts := s.puts ++ [trade], waiting := s.waiting.eraseIdx index }
  | .cancel index =>
    match s.waiting[index]? with
    | none => s
    | some _ => { s with waiting := s.waiting.eraseIdx index, cancelled := s.cancelled + 1 }
  | .get =>
    match s.queue.getNowait with
    | none => s
    | some (trade, queue) => { s with queue := queue, delivered := s.delivered ++ [trade] }

structure Conserved (maxsize : ℕ) (overflowStrategy : OverflowStrategy) (s : System Trade) :
    Prop where
  maxsizeKept : s.queue.maxsize = maxsize
  strategyKept : s.queue.overflowStrategy = overflowStrategy
  order : (s.delivered ++ s.queue.items).Sublist s.puts
  count : s.puts.length = s.delivered.length + s.queue.items.length + s.queue.dropped
  newest : overflowStrategy = .dropOldest → s.queue.items <:+ s.puts
  lossless : overflowStrategy = .block → s.queue.dropped = 0
  calls : s.calls = s.puts.length + s.waiting.length + s.cancelled

variable {maxsize : ℕ} {overflowStrategy : OverflowStrategy} {s : System Trade}

theorem suffix_concat {items puts : List Trade} (h : items <:+ puts) (trade : Trade) :
    items ++ [trade] <:+ puts ++ [trade] := by
  obtain ⟨before, rfl⟩ := h
  exact ⟨before, by rw [List.append_assoc]⟩

/-- A put that returns, of a new call or of a woken producer. -/
theorem Conserved.put (h : Conserved maxsize overflowStrategy s) {trade : Trade}
    {queue : BoundedTradeQueue Trade} {kept : Bool} (hput : s.queue.put trade = some (queue, kept))
    {waiting : List Trade} {calls : ℕ}
    (hcalls : calls = s.puts.length + 1 + waiting.length + s.cancelled) :
    Conserved maxsize overflowStrategy
      { s with queue := queue, puts := s.puts ++ [trade], waiting := waiting, calls := calls } := by
  obtain ⟨hsame, hcases⟩ := BoundedTradeQueue.put_cases hput
  have hlength : (s.puts ++ [trade]).length = s.puts.length + 1 := by simp
  have hcount := h.count
  refine ⟨hsame.maxsize.trans h.maxsizeKept, hsame.overflowStrategy.trans h.strategyKept, ?_, ?_,
    ?_, ?_, ?_⟩
  · rcases hcases with ⟨hitems, -⟩ | ⟨-, hitems, -⟩ | ⟨-, ⟨oldest, hhead⟩, hitems, -⟩
    · rw [hitems, ← List.append_assoc]
      exact h.order.append (List.Sublist.refl _)
    · rw [hitems]
      exact h.order.trans (List.sublist_append_left _ _)
    · rw [hitems, ← List.append_assoc]
      refine List.Sublist.append ?_ (List.Sublist.refl _)
      exact (List.Sublist.append (List.Sublist.refl _) (List.tail_sublist _)).trans h.order
  · rcases hcases with ⟨hitems, hdropped⟩ | ⟨-, hitems, hdropped⟩ |
      ⟨-, ⟨oldest, hhead⟩, hitems, hdropped⟩
    · simp only [hlength, hitems, hdropped, List.length_append, List.length_singleton]
      omega
    · simp only [hlength, hitems, hdropped]
      omega
    · have hone : s.queue.items.length = s.queue.items.tail.length + 1 := by
        rw [hhead, List.length_cons, List.tail_cons]
      simp only [hlength, hitems, hdropped, List.length_append, List.length_singleton]
      omega
  · intro hstrategy
    rcases hcases with ⟨hitems, -⟩ | ⟨hnewest, -, -⟩ | ⟨-, -, hitems, -⟩
    · rw [hitems]
      exact suffix_concat (h.newest hstrategy) trade
    · rw [h.strategyKept, hstrategy] at hnewest
      cases hnewest
    · rw [hitems]
      exact suffix_concat ((List.tail_suffix _).trans (h.newest hstrategy)) trade
  · intro hstrategy
    rcases hcases with ⟨-, hdropped⟩ | ⟨hother, -, -⟩ | ⟨hother, -, -, -⟩
    · rw [hdropped]
      exact h.lossless hstrategy
    · rw [h.strategyKept, hstrategy] at hother
      cases hother
    · rw [h.strategyKept, hstrategy] at hother
      cases hother
  · rw [hlength]
    exact hcalls

theorem length_eraseIdx {waiting : List Trade} {index : ℕ} {trade : Trade}
    (h : waiting[index]? = some trade) : (waiting.eraseIdx index).length + 1 = waiting.length := by
  obtain ⟨hlt, -⟩ := List.getElem?_eq_some_iff.mp h
  rw [List.length_eraseIdx_of_lt hlt]
  omega

theorem conserved_start (h : 0 < maxsize) :
    Conserved maxsize overflowStrategy
      (start (.init maxsize overflowStrategy h : BoundedTradeQueue Trade)) where
  maxsizeKept := rfl
  strategyKept := rfl
  order := List.Sublist.refl _
  count := rfl
  newest _ := List.suffix_refl _
  lossless _ := rfl
  calls := rfl

theorem Conserved.next (h : Conserved maxsize overflowStrategy s) (l : Label Trade) :
    Conserved maxsize overflowStrategy (s.next l) := by
  have hcalls := h.calls
  cases l with
  | put trade =>
    rw [System.next]
    cases hput : s.queue.put trade with
    | none =>
      refine ⟨h.maxsizeKept, h.strategyKept, h.order, h.count, h.newest, h.lossless, ?_⟩
      simp only [List.length_append, List.length_singleton]
      omega
    | some out => exact h.put hput (by omega)
  | resume index =>
    rw [System.next]
    cases hwaiting : s.waiting[index]? with
    | none => exact h
    | some trade =>
      simp only
      cases hput : s.queue.put trade with
      | none => exact h
      | some out =>
        have hlength := length_eraseIdx hwaiting
        exact h.put hput (by omega)
  | cancel index =>
    rw [System.next]
    cases hwaiting : s.waiting[index]? with
    | none => exact h
    | some trade =>
      have hlength := length_eraseIdx hwaiting
      refine ⟨h.maxsizeKept, h.strategyKept, h.order, h.count, h.newest, h.lossless, ?_⟩
      simp only
      omega
  | get =>
    rw [System.next]
    cases hget : s.queue.getNowait with
    | none => exact h
    | some out =>
      obtain ⟨hsame, hitems, hdropped⟩ := BoundedTradeQueue.getNowait_cases hget
      have horder := h.order
      have hcount := h.count
      rw [hitems] at horder hcount
      refine ⟨hsame.maxsize.trans h.maxsizeKept,
        hsame.overflowStrategy.trans h.strategyKept, ?_, ?_,
        ?_, ?_, hcalls⟩
      · simpa using horder
      · simp only [List.length_cons] at hcount
        simp only [List.length_append, List.length_singleton, hdropped]
        omega
      · intro hstrategy
        have hsuffix := h.newest hstrategy
        rw [hitems] at hsuffix
        exact (List.suffix_cons _ _).trans hsuffix
      · intro hstrategy
        rw [hdropped]
        exact h.lossless hstrategy

theorem conserved_steps (h : 0 < maxsize) (labels : List (Label Trade)) :
    Conserved maxsize overflowStrategy
      (labels.foldl System.next
        (start (.init maxsize overflowStrategy h : BoundedTradeQueue Trade))) := by
  induction labels using List.reverseRecOn with
  | nil => exact conserved_start h
  | append_singleton labels l ih =>
    rw [List.foldl_append, List.foldl_cons, List.foldl_nil]
    exact ih.next l

/-- Conservation: what was delivered is a subsequence of what was put, the size stays within the
bound, every put trade was delivered, is queued or counted as dropped, and a queue that drops its
oldest trades holds the newest ones. -/
theorem queue_conserves (h : 0 < maxsize) (overflowStrategy : OverflowStrategy)
    (labels : List (Label Trade)) :
    let s := labels.foldl System.next
      (start (.init maxsize overflowStrategy h : BoundedTradeQueue Trade))
    s.delivered.Sublist s.puts ∧ s.queue.items.length ≤ maxsize ∧
      s.puts.length = s.delivered.length + s.queue.items.length + s.queue.dropped ∧
      (overflowStrategy = .dropOldest → s.queue.items <:+ s.puts) ∧
      s.calls = s.puts.length + s.waiting.length + s.cancelled := by
  intro s
  have hconserved : Conserved maxsize overflowStrategy s := conserved_steps h labels
  refine ⟨?_, ?_, hconserved.count, hconserved.newest, hconserved.calls⟩
  · exact (List.sublist_append_left _ _).trans hconserved.order
  · exact hconserved.maxsizeKept ▸ s.queue.bounded

/-- Four puts and a get on a queue of two places that drops its oldest trades. -/
theorem queue_conserves_two_places :
    (([Label.put 1, .put 2, .put 3, .get, .put 4] : List (Label ℕ)).foldl System.next
        (start (.init 2 .dropOldest (by decide)))).queue.items = [3, 4] ∧
      [3, 4] <:+ [1, 2, 3, 4] := by
  have hitems : (([Label.put 1, .put 2, .put 3, .get, .put 4] : List (Label ℕ)).foldl System.next
      (start (.init 2 .dropOldest (by decide)))).queue.items = [3, 4] := by decide +kernel
  have hputs : (([Label.put 1, .put 2, .put 3, .get, .put 4] : List (Label ℕ)).foldl System.next
      (start (.init 2 .dropOldest (by decide)))).puts = [1, 2, 3, 4] := by decide +kernel
  have hnewest := (@queue_conserves ℕ 2 (by decide) .dropOldest
    [.put 1, .put 2, .put 3, .get, .put 4]).2.2.2.1 rfl
  rw [hitems, hputs] at hnewest
  exact ⟨hitems, hnewest⟩

end System

end TradeQueue
