import LedgerLens.HorizonStreamer
import LedgerLens.TradeStreaming

/-!
# Recovery of the streaming ingestion

The trades that the two streaming ingestions bring to scoring over any number of crashes and
restarts: the `stream` command, and the Horizon streamer with the consumer of its queue.
-/
namespace StreamRecovery

open EventDedup HorizonTrades LabelledRuns
open HorizonStreamer (BoundedTradeQueue Label Phase Settings Streamer System)
open HorizonStreamer.System

section Steps

variable {server : RedisServer} (py : Builtins) (settings : Settings) (stream : Stream)

/-- The consumer took the event, or it waits in the queue. -/
def Kept (s : System server) (index : ℕ) : Prop :=
  index ∈ s.handled ∨ index ∈ s.queue.items

def IsTrade (index : ℕ) : Prop :=
  (stream.trade? index).isSome

/-- What the queue may lose in a crash: no trade that a checkpoint covers or that Redis was
given. -/
def SpareQueue (s : System server) : Prop :=
  ∀ index ∈ s.queue.items, index ∉ s.handled →
    (∀ cursor, cursor ∈ s.checkpoint ∨ cursor = settings.horizonDefaultCursor →
      cursor ≠ "now" → stream.covered cursor ≤ index) ∧
    ∀ trade, stream.trade? index = some trade →
      ¬ ∃ t, server.Exists s.redis (DEDUP_REDIS_PREFIX ++ streamKey py trade) t

/-- The condition on one step, for the trades and for the queue. -/
def Harmless (s : System server) (l : Label) : Prop :=
  s.Harmless py settings stream (IsTrade stream) Kept l ∧
    (l = .enqueue → ¬ s.queue.full) ∧ (l = .crash → SpareQueue py settings stream s)

def HarmlessStep (s : System server) (l : Label) (t : System server) : Prop :=
  s.next py settings stream l = some t ∧ Harmless py settings stream s l

variable {py settings stream}

theorem steady_kept : Steady (Kept : System server → ℕ → Prop) := by
  intro s t hqueue _ _ hhandled index h
  rwa [Kept, hqueue, hhandled]

theorem kept_enqueue {s t : System server} {r : Streamer} {index : ℕ}
    (h : s.enqueue r index = some t) (hroom : ¬ s.queue.full) :
    Kept t index ∧ ∀ i, Kept s i → Kept t i := by
  obtain ⟨⟨queue', accepted⟩, hput, ht⟩ := Option.map_eq_some_iff.mp h
  rw [BoundedTradeQueue.put, dif_neg hroom] at hput
  obtain ⟨rfl, rfl⟩ := Prod.mk.inj (Option.some.inj hput)
  rw [if_pos rfl] at ht
  subst ht
  refine ⟨.inr (List.mem_append_right _ (List.mem_singleton.mpr rfl)), ?_⟩
  intro i hi
  exact hi.imp_right (List.mem_append_left _)

theorem kept_consume {s t : System server} (h : s.next py settings stream .consume = some t)
    (i : ℕ) (hi : Kept s i) : Kept t i := by
  obtain ⟨⟨index, queue'⟩, hget, ht⟩ := Option.map_eq_some_iff.mp h
  subst ht
  have hitems := BoundedTradeQueue.items_of_getNowait hget
  rcases hi with hhandled | hqueued
  · exact .inl (List.mem_append_left _ hhandled)
  · rw [hitems] at hqueued
    rcases List.mem_cons.mp hqueued with rfl | hrest
    · exact .inl (List.mem_append_right _ (List.mem_singleton.mpr rfl))
    · exact .inr hrest

theorem invariant_kept {s t : System server} {l : Label} (hkeys : DistinctKeys py stream)
    (h : s.Invariant py settings stream (IsTrade stream) Kept)
    (hstep : HarmlessStep py settings stream s l t) :
    t.Invariant py settings stream (IsTrade stream) Kept := by
  obtain ⟨hnext, hharmless, hroom, hspare⟩ := hstep
  by_cases hl : l = .crash
  · subst hl
    apply invariant_crash h hharmless hnext
    intro i hi hmissing
    obtain rfl : { s with streamer := none, queue := s.queue.empty } = t := Option.some.inj hnext
    have hunhandled : i ∉ s.handled := fun hhandled => hmissing (.inl hhandled)
    exact hspare rfl i (hi.resolve_left hunhandled) hunhandled
  · apply invariant_next steady_kept _ hkeys h hharmless hnext hl
    · rintro (rfl | rfl)
      · obtain ⟨r, index, -, -, henqueue⟩ := enqueue_of_next hnext
        exact (kept_enqueue henqueue (hroom rfl)).2
      · exact kept_consume hnext
    · rintro r hr index rfl hphase
      obtain ⟨q, i, hq, hphase', henqueue⟩ := enqueue_of_next hnext
      obtain rfl : r = q := Option.some.inj ((Option.mem_def.mp hr).symm.trans hq)
      obtain rfl := Phase.enqueuing.inj (hphase.symm.trans hphase')
      exact (kept_enqueue henqueue (hroom rfl)).1
    · rintro index event hevent hpayload htrade
      rw [IsTrade, Stream.trade?, hevent] at htrade
      obtain ⟨id, token, payload⟩ := event
      obtain rfl : payload = .skipped := hpayload
      simp at htrade

variable (stream) in
/-- The next streamer does not receive the event again, or the running one has gone past it. -/
def Passed (s : System server) (index : ℕ) : Prop :=
  (∃ cursor ∈ s.checkpoint, cursor ≠ "now" ∧ index < stream.covered cursor) ∨
    ∃ r ∈ s.streamer, ∃ next, r.phase = .receiving next ∧ index < next

theorem kept_of_passed {s t : System server} {ls : List Label} (hkeys : DistinctKeys py stream)
    (hfresh : s.Fresh py settings stream)
    (hrun : Run (HarmlessStep py settings stream) s ls t) (index : ℕ)
    (htrade : (stream.trade? index).isSome) (hpassed : Passed stream t index) : Kept t index := by
  have hinv : t.Invariant py settings stream (IsTrade stream) Kept :=
    hrun.invariant (fun u l v hu hstep => invariant_kept hkeys hu hstep) hfresh.invariant
  rcases hpassed with ⟨cursor, hcursor, hnow, hlt⟩ | ⟨r, hr, next, hphase, hlt⟩
  · exact hinv.checkpoint cursor hcursor hnow index hlt htrade
  · have hsettled := hinv.phase r hr
    rw [PhaseSettled, hphase] at hsettled
    exact hsettled.1 index hlt htrade

/-- Of a stream whose trades have distinct keys, every run whose steps meet the condition brings
each trade to scoring before it goes past it for good: the `stream` command scores it, and the
consumer of the Horizon streamer has it or finds it in the queue. -/
theorem no_trade_lost (hkeys : DistinctKeys py stream) :
    (∀ (settings : TradeStreaming.Settings) (s t : TradeStreaming.System server)
      (ls : List TradeStreaming.Label), s.Fresh py settings stream →
      Run (TradeStreaming.System.HarmlessStep py settings stream) s ls t →
      ∀ index, (stream.trade? index).isSome → t.Passed stream index → index ∈ t.delivered) ∧
    (∀ (settings : Settings) (s t : System server) (ls : List Label),
      s.Fresh py settings stream → Run (HarmlessStep py settings stream) s ls t →
      ∀ index, (stream.trade? index).isSome → Passed stream t index → Kept t index) := by
  constructor
  · intro settings s t ls hfresh hrun index htrade hpassed
    exact TradeStreaming.System.every_trade_delivered hkeys hfresh hrun index htrade hpassed
  · intro settings s t ls hfresh hrun index htrade hpassed
    exact kept_of_passed hkeys hfresh hrun index htrade hpassed

variable (py settings stream) in
def cleanRun (s : System server) (ls : List Label) : Option (System server) :=
  ls.foldlM (fun s l =>
    if s.clean settings stream l ∧ (l = .enqueue → ¬ s.queue.full) ∧
        (l = .crash → s.queue.items = []) then
      s.next py settings stream l
    else none) s

theorem run_of_cleanRun {s t : System server} {ls : List Label}
    (h : cleanRun py settings stream s ls = some t) :
    Run (HarmlessStep py settings stream) s ls t := by
  apply Run.mono _ (run_iff_foldlM.mpr h)
  rintro u l v ⟨hnext, hclean, hroom, hempty⟩
  refine ⟨hnext, harmless_of_clean hclean, hroom, ?_⟩
  intro hcrash index hindex
  rw [hempty hcrash] at hindex
  exact absurd hindex List.not_mem_nil

end Steps

def commandLabels : List TradeStreaming.Label :=
  [.start 0 true, .connect 0, .receive (answeredAt 1001), .score, .record, .checkpoint 5 true,
    .crash, .start 0 true]

def streamerLabels : List Label :=
  [.start 0 true none, .connect 0, .receive, .check (answeredAt 1001), .record 1 true, .enqueue,
    .mark true, .consume, .crash, .start 20 true none]

/-- A trade that was brought to scoring before a crash. -/
theorem lone_trade_kept :
    (∃ t, TradeStreaming.idle.cleanRun asciiBuiltins TradeStreaming.defaultSettings loneStream
      commandLabels = some t ∧ 0 ∈ t.delivered) ∧
    (∃ t, cleanRun asciiBuiltins HorizonStreamer.defaultSettings loneStream HorizonStreamer.idle
      streamerLabels = some t ∧ Kept t 0) := by
  have hcommand : (TradeStreaming.idle.cleanRun asciiBuiltins TradeStreaming.defaultSettings
      loneStream commandLabels).map TradeStreaming.System.checkpoint = some (some "100-1") := by
    decide +kernel
  have hstreamer : (cleanRun asciiBuiltins HorizonStreamer.defaultSettings loneStream
      HorizonStreamer.idle streamerLabels).map System.checkpoint = some (some "100-1") := by
    decide +kernel
  obtain ⟨t, ht, hcheckpoint⟩ := Option.map_eq_some_iff.mp hcommand
  obtain ⟨u, hu, hcheckpoint'⟩ := Option.map_eq_some_iff.mp hstreamer
  constructor
  · refine ⟨t, ht, (no_trade_lost loneStream_distinctKeys).1 _ _ _ _
      TradeStreaming.System.idle_fresh
      (TradeStreaming.System.run_of_cleanRun ht) 0 rfl ?_⟩
    exact .inl ⟨"100-1", hcheckpoint, by decide, by decide⟩
  · refine ⟨u, hu, (no_trade_lost loneStream_distinctKeys).2 _ _ _ _ idle_fresh
      (run_of_cleanRun hu) 0 rfl ?_⟩
    exact .inl ⟨"100-1", hcheckpoint', by decide, by decide⟩

end StreamRecovery
