import LedgerLens.Dictionaries
import LedgerLens.NewestEntries

/-!
# Rolling windows

`detection/rolling_window.py`: the window of trades of a wallet, over any sequence of calls of
`add`, and the windows of all wallets. Times are microseconds of UTC. A call reads the clock to
evict and again to check the trade.
-/
namespace RollingWindow

open Dictionaries NewestEntries

abbrev Instant := ℤ

def WINDOW_TOLERANCE_HOURS : ℤ := 24
def MAX_TRADES_PER_WALLET_WINDOW : ℕ := 10000

/-- `timedelta(hours=…)`. -/
def timedelta (hours : ℤ) : ℤ := hours * 3600000000

/-- A `datetime`: what its clock shows and, unless it is naive, how far that is ahead of UTC. -/
structure CloseTime where
  wallClock : ℤ
  offset : Option ℤ
  deriving DecidableEq

/-- `_as_utc`. -/
def CloseTime.asUtc (dt : CloseTime) : Instant :=
  match dt.offset with
  | none => dt.wallClock
  | some offset => dt.wallClock - offset

/-- A trade; `Rest` is what the windows store of it without looking. -/
structure Trade (Rest : Type) where
  ledgerCloseTime : CloseTime
  baseAccount : String
  rest : Rest
  deriving DecidableEq

variable {Rest : Type}

def Trade.time (trade : Trade Rest) : Instant := trade.ledgerCloseTime.asUtc

structure WalletWindow (Rest : Type) where
  trades : List (Trade Rest)
  lastScore : Option ℤ
  deriving DecidableEq

namespace WalletWindow

def init : WalletWindow Rest := ⟨[], none⟩

/-- `_evict`. -/
def evict (w : WalletWindow Rest) (hours : ℤ) (now : Instant) : WalletWindow Rest :=
  let cutoff := now - timedelta hours
  { w with trades := w.trades.dropWhile fun t => t.time < cutoff }

/-- A trade older than the last one is counted as out of order and inserted where the search from
the right end meets a trade that is not newer. -/
def place (trades : List (Trade Rest)) (trade : Trade Rest) : List (Trade Rest) :=
  match trades.getLast? with
  | some newest =>
    if trade.time < newest.time then insertLate Trade.time trade trades else trades ++ [trade]
  | none => trades ++ [trade]

def add (w : WalletWindow Rest) (trade : Trade Rest) (now now' : Instant) :
    Bool × WalletWindow Rest :=
  let evicted := w.evict WINDOW_TOLERANCE_HOURS now
  let cutoff := now' - timedelta WINDOW_TOLERANCE_HOURS
  if trade.time < cutoff then (false, evicted)
  else
    let trades :=
      if MAX_TRADES_PER_WALLET_WINDOW ≤ evicted.trades.length then evicted.trades.tail
      else evicted.trades
    (true, { evicted with trades := place trades trade })

def get (w : WalletWindow Rest) (hours : ℤ) (now : Instant) : List (Trade Rest) :=
  let cutoff := now - timedelta hours
  w.trades.filter fun t => cutoff ≤ t.time

theorem get_eq {w : WalletWindow Rest} {hours : ℤ} {now : Instant}
    (h : hours ≤ WINDOW_TOLERANCE_HOURS) : w.get hours now =
      (w.get WINDOW_TOLERANCE_HOURS now).filter fun t => now - timedelta hours ≤ t.time := by
  rw [get, get, List.filter_filter]
  apply List.filter_congr
  intro t _
  rw [Bool.eq_self_and]
  intro hspan
  have hours_le : timedelta hours ≤ timedelta WINDOW_TOLERANCE_HOURS :=
    Int.mul_le_mul_of_nonneg_right h (by decide)
  exact decide_eq_true ((Int.sub_le_sub_left hours_le now).trans (of_decide_eq_true hspan))

theorem place_eq (trades : List (Trade Rest)) (trade : Trade Rest) :
    place trades trade = insertLate Trade.time trade trades := by
  rcases List.eq_nil_or_concat trades with rfl | ⟨before, newest, rfl⟩
  · rfl
  · rw [List.concat_eq_append, place, List.getLast?_concat]
    simp only
    split_ifs with hlt
    · rfl
    · rw [insertLate, List.rdropWhile_concat_neg _ _ _ (by simpa using hlt),
        List.rtakeWhile_concat_neg _ _ _ (by simpa using hlt)]

end WalletWindow

structure Call (Rest : Type) where
  trade : Trade Rest
  now : Instant
  now' : Instant

/-- The window, and of the trades that it accepted those that no eviction since has found too
old. -/
structure Log (Rest : Type) where
  window : WalletWindow Rest
  inSpan : List (Trade Rest)

def Call.accepted (c : Call Rest) : Prop := c.now' - timedelta WINDOW_TOLERANCE_HOURS ≤ c.trade.time

instance (c : Call Rest) : Decidable c.accepted := Int.decLe _ _

def Log.next (s : Log Rest) (c : Call Rest) : Log Rest where
  window := (s.window.add c.trade c.now c.now').2
  inSpan :=
    (s.inSpan.filter fun t => c.now - timedelta WINDOW_TOLERANCE_HOURS ≤ t.time) ++
      if c.accepted then [c.trade] else []

def after (calls : List (Call Rest)) : Log Rest := calls.foldl Log.next ⟨.init, []⟩

theorem after_concat (calls : List (Call Rest)) (c : Call Rest) :
    after (calls ++ [c]) = (after calls).next c := by
  rw [after, List.foldl_append]
  rfl

def acceptedTrades (calls : List (Call Rest)) : List (Trade Rest) :=
  (calls.filter fun c => c.accepted).map Call.trade

theorem inSpan_filter {calls : List (Call Rest)} {now : Instant}
    (h : ∀ c ∈ calls, c.now ≤ now) :
    (after calls).inSpan.filter (fun t => now - timedelta WINDOW_TOLERANCE_HOURS ≤ t.time) =
      (acceptedTrades calls).filter fun t => now - timedelta WINDOW_TOLERANCE_HOURS ≤ t.time := by
  induction calls using List.reverseRecOn with
  | nil => rfl
  | append_singleton calls c ih =>
    have hc : c.now ≤ now := h c (List.mem_append_right _ (List.mem_singleton_self c))
    have hnew : (if c.accepted then [c.trade] else []) = acceptedTrades [c] := by
      by_cases haccepted : c.accepted
      · rw [if_pos haccepted, acceptedTrades, List.filter_singleton, decide_eq_true haccepted]
        rfl
      · rw [if_neg haccepted, acceptedTrades, List.filter_singleton, decide_eq_false haccepted]
        rfl
    have hsplit : acceptedTrades (calls ++ [c]) = acceptedTrades calls ++ acceptedTrades [c] := by
      rw [acceptedTrades, List.filter_append, List.map_append]
      rfl
    rw [after_concat, Log.next, hnew, hsplit, List.filter_append, List.filter_append,
      ← ih fun c' hc' => h c' (List.mem_append_left _ hc'), List.filter_filter]
    congr 1
    apply List.filter_congr
    intro t _
    rw [Bool.and_eq_left_iff_imp]
    intro hspan
    rw [decide_eq_true_iff] at hspan ⊢
    exact (Int.sub_le_sub_right hc _).trans hspan

/-- The window holds the newest accepted trades of the span, in order. -/
def Log.Newest (s : Log Rest) : Prop :=
  NewestEntries.Newest Trade.time MAX_TRADES_PER_WALLET_WINDOW s.inSpan s.window.trades

/-- An accepted trade meets a full window of newer trades only. -/
def Displaces (s : Log Rest) (c : Call Rest) : Prop :=
  let evicted := (s.window.evict WINDOW_TOLERANCE_HOURS c.now).trades
  c.accepted ∧ MAX_TRADES_PER_WALLET_WINDOW ≤ evicted.length ∧
    ∃ oldest ∈ evicted.head?, c.trade.time < oldest.time

/-- No trade of the sequence does. -/
def Undisplaced (calls : List (Call Rest)) : Prop :=
  ∀ before c, before ++ [c] <+: calls → ¬ Displaces (after before) c

theorem next_trades (s : Log Rest) (c : Call Rest) :
    (s.next c).window.trades =
      let evicted := (s.window.evict WINDOW_TOLERANCE_HOURS c.now).trades
      if c.accepted then
        insertLate Trade.time c.trade
          (if MAX_TRADES_PER_WALLET_WINDOW ≤ evicted.length then evicted.tail else evicted)
      else evicted := by
  rw [Log.next, WalletWindow.add]
  by_cases hold : c.trade.time < c.now' - timedelta WINDOW_TOLERANCE_HOURS
  · have haccepted : ¬ c.accepted := not_le.mpr hold
    simp only
    rw [if_pos hold, if_neg haccepted]
  · have haccepted : c.accepted := not_lt.mp hold
    simp only
    rw [if_neg hold, if_pos haccepted, WalletWindow.place_eq]

theorem next_ordered {s : Log Rest} (h : Ordered Trade.time s.window.trades) (c : Call Rest) :
    Ordered Trade.time (s.next c).window.trades := by
  have hevicted : Ordered Trade.time (s.window.evict WINDOW_TOLERANCE_HOURS c.now).trades :=
    h.sublist (List.dropWhile_sublist _)
  rw [next_trades]
  simp only
  split_ifs
  · exact Ordered.insertLate (hevicted.sublist (List.tail_sublist _)) _
  · exact hevicted.insertLate _
  · exact hevicted

theorem after_ordered (calls : List (Call Rest)) :
    Ordered Trade.time (after calls).window.trades := by
  induction calls using List.reverseRecOn with
  | nil => exact .nil
  | append_singleton calls c ih =>
    rw [after_concat]
    exact next_ordered ih c

/-- From a window that holds the newest trades, a call leads to one that does unless it
displaces. -/
theorem next_newest_iff {s : Log Rest} (h : s.Newest) (c : Call Rest) :
    (s.next c).Newest ↔ ¬ Displaces s c := by
  have hevicted : NewestEntries.Newest Trade.time MAX_TRADES_PER_WALLET_WINDOW
      (s.inSpan.filter fun t => c.now - timedelta WINDOW_TOLERANCE_HOURS ≤ t.time)
      (s.window.evict WINDOW_TOLERANCE_HOURS c.now).trades := h.expire _
  have hmax : 0 < MAX_TRADES_PER_WALLET_WINDOW := by decide
  rw [Log.Newest, next_trades, Log.next, Displaces]
  simp only
  by_cases haccepted : c.accepted
  · rw [if_pos haccepted, if_pos haccepted]
    by_cases hfull :
        MAX_TRADES_PER_WALLET_WINDOW ≤ (s.window.evict WINDOW_TOLERANCE_HOURS c.now).trades.length
    · rw [if_pos hfull]
      rcases htrades : (s.window.evict WINDOW_TOLERANCE_HOURS c.now).trades with _ | ⟨oldest, rest⟩
      · rw [htrades, List.length_nil] at hfull
        omega
      · rw [htrades] at hevicted hfull
        by_cases hlt : c.trade.time < oldest.time
        · constructor
          · exact fun hnewest => absurd hnewest (hevicted.displaced hlt)
          · exact fun hnot => absurd ⟨haccepted, hfull, oldest, rfl, hlt⟩ hnot
        · constructor
          · rintro - ⟨-, -, oldest', holdest, hlt'⟩
            obtain rfl := Option.some.inj holdest
            exact hlt hlt'
          · exact fun _ => hevicted.replace hfull (not_lt.mp hlt)
    · rw [if_neg hfull]
      constructor
      · exact fun _ hdisplaces => hfull hdisplaces.2.1
      · exact fun _ => hevicted.insert (not_le.mp hfull) c.trade
  · rw [if_neg haccepted, if_neg haccepted, List.append_nil]
    constructor
    · exact fun _ hdisplaces => haccepted hdisplaces.1
    · exact fun _ => hevicted

theorem Undisplaced.of_prefix {calls before : List (Call Rest)} (h : Undisplaced calls)
    (hbefore : before <+: calls) : Undisplaced before :=
  fun before' c hcall => h before' c (hcall.trans hbefore)

theorem newest_of_undisplaced {calls : List (Call Rest)} (h : Undisplaced calls) :
    (after calls).Newest := by
  induction calls using List.reverseRecOn with
  | nil => exact .nil
  | append_singleton calls c ih =>
    rw [after_concat]
    have hbefore := ih (h.of_prefix (List.prefix_append calls [c]))
    exact (next_newest_iff hbefore c).mpr (h calls c List.prefix_rfl)

/-- The window is always in order, and holds the newest trades of the span throughout a sequence
exactly if no trade of it displaces a newer one. Two such sequences that leave the same trades in
the span, in whatever order, leave the same times in their windows. -/
theorem holds_newest_iff (calls : List (Call Rest)) :
    Ordered Trade.time (after calls).window.trades ∧
      ((∀ before, before <+: calls → (after before).Newest) ↔ Undisplaced calls) ∧
      ∀ calls', Undisplaced calls → Undisplaced calls' →
        (after calls).inSpan.Perm (after calls').inSpan →
        (after calls).window.trades.map Trade.time =
          (after calls').window.trades.map Trade.time := by
  refine ⟨after_ordered calls, ⟨fun h before c hcall hdisplaces => ?_, fun h before hbefore => ?_⟩,
    fun calls' h h' hperm => ?_⟩
  · have hnewest := h (before ++ [c]) hcall
    rw [after_concat] at hnewest
    have hbefore := h before ((List.prefix_append before [c]).trans hcall)
    exact (next_newest_iff hbefore c).mp hnewest hdisplaces
  · exact newest_of_undisplaced (h.of_prefix hbefore)
  · exact (newest_of_undisplaced h).keys_eq (newest_of_undisplaced h') hperm

abbrev RollingWindowState (Rest : Type) := Dictionary String (WalletWindow Rest)

def addTrade (state : RollingWindowState Rest) (wallet : String) (trade : Trade Rest)
    (now now' : Instant) : RollingWindowState Rest :=
  state.set wallet (((state.get? wallet).getD .init).add trade now now').2

def getWindow (state : RollingWindowState Rest) (wallet : String) (hours : ℤ) (now : Instant) :
    List (Trade Rest) :=
  match state.get? wallet with
  | none => []
  | some window => window.get hours now

def scoreOnTrade (state : RollingWindowState Rest) (c : Call Rest) : RollingWindowState Rest :=
  addTrade state c.trade.baseAccount c.trade c.now c.now'

def feed (calls : List (Call Rest)) : RollingWindowState Rest := calls.foldl scoreOnTrade .empty

def callsOf (wallet : String) (calls : List (Call Rest)) : List (Call Rest) :=
  calls.filter fun c => c.trade.baseAccount = wallet

theorem feed_concat (calls : List (Call Rest)) (c : Call Rest) :
    feed (calls ++ [c]) = scoreOnTrade (feed calls) c := by
  rw [feed, List.foldl_append]
  rfl

theorem scoreOnTrade_same {state state' : RollingWindowState Rest} (h : state.Same state')
    (c : Call Rest) : (scoreOnTrade state c).Same (scoreOnTrade state' c) := by
  rw [scoreOnTrade, scoreOnTrade, addTrade, addTrade, h c.trade.baseAccount]
  exact h.set _ _

theorem getWindow_same {state state' : RollingWindowState Rest} (h : state.Same state')
    (wallet : String) (hours : ℤ) (now : Instant) :
    getWindow state wallet hours now = getWindow state' wallet hours now := by
  rw [getWindow, getWindow, h wallet]

theorem callsOf_concat (wallet : String) (calls : List (Call Rest)) (c : Call Rest) :
    callsOf wallet (calls ++ [c]) =
      if c.trade.baseAccount = wallet then callsOf wallet calls ++ [c]
      else callsOf wallet calls := by
  rw [callsOf, List.filter_append, List.filter_singleton]
  by_cases hwallet : c.trade.baseAccount = wallet
  · rw [if_pos hwallet, decide_eq_true hwallet]
    rfl
  · rw [if_neg hwallet, decide_eq_false hwallet]
    exact List.append_nil _

theorem get?_feed (calls : List (Call Rest)) (wallet : String) :
    (feed calls).get? wallet =
      if callsOf wallet calls = [] then none else some (after (callsOf wallet calls)).window := by
  induction calls using List.reverseRecOn with
  | nil => rfl
  | append_singleton calls c ih =>
    rw [feed_concat, scoreOnTrade, addTrade, callsOf_concat]
    by_cases hwallet : c.trade.baseAccount = wallet
    · have hsome : callsOf wallet calls ++ [c] ≠ [] := by simp
      rw [if_pos hwallet, hwallet, Dictionary.get?_set_self, ih, if_neg hsome, after_concat]
      by_cases hnone : callsOf wallet calls = []
      · rw [if_pos hnone, hnone]
        rfl
      · rw [if_neg hnone]
        rfl
    · rw [if_neg hwallet, Dictionary.get?_set_of_ne _ (Ne.symm hwallet), ih]

theorem getWindow_feed (calls : List (Call Rest)) (wallet : String) (hours : ℤ) (now : Instant) :
    getWindow (feed calls) wallet hours now =
      (after (callsOf wallet calls)).window.get hours now := by
  rw [getWindow, get?_feed]
  by_cases hnone : callsOf wallet calls = []
  · rw [if_pos hnone, hnone]
    rfl
  · rw [if_neg hnone]

theorem mem_next {s : Log Rest} {c : Call Rest} {t : Trade Rest}
    (ht : t ∈ (s.next c).window.trades) : t = c.trade ∨ t ∈ s.window.trades := by
  have hevicted : (s.window.evict WINDOW_TOLERANCE_HOURS c.now).trades ⊆ s.window.trades :=
    (List.dropWhile_sublist _).subset
  rw [next_trades] at ht
  simp only at ht
  split_ifs at ht
  · rcases List.mem_cons.mp ((insertLate_perm _ _ _).mem_iff.mp ht) with heq | hmem
    · exact .inl heq
    · exact .inr (hevicted (List.mem_of_mem_tail hmem))
  · rcases List.mem_cons.mp ((insertLate_perm _ _ _).mem_iff.mp ht) with heq | hmem
    · exact .inl heq
    · exact .inr (hevicted hmem)
  · exact .inr (hevicted ht)

theorem mem_after {calls : List (Call Rest)} {t : Trade Rest}
    (ht : t ∈ (after calls).window.trades) : ∃ c ∈ calls, c.trade = t := by
  induction calls using List.reverseRecOn with
  | nil => cases ht
  | append_singleton calls c ih =>
    rw [after_concat] at ht
    rcases mem_next ht with rfl | ht
    · exact ⟨c, List.mem_append_right _ (List.mem_singleton_self c), rfl⟩
    · obtain ⟨c', hc', htrade⟩ := ih ht
      exact ⟨c', List.mem_append_left _ hc', htrade⟩

theorem length_after_le (calls : List (Call Rest)) :
    (after calls).window.trades.length ≤ calls.length := by
  induction calls using List.reverseRecOn with
  | nil => exact Nat.le_refl 0
  | append_singleton calls c ih =>
    have hevicted : ((after calls).window.evict WINDOW_TOLERANCE_HOURS c.now).trades.length ≤
        calls.length := (List.dropWhile_sublist _).length_le.trans ih
    rw [after_concat, next_trades, List.length_append, List.length_singleton]
    simp only
    split_ifs
    · rw [(insertLate_perm _ _ _).length_eq, List.length_cons, List.length_tail]
      omega
    · rw [(insertLate_perm _ _ _).length_eq, List.length_cons]
      omega
    · omega

theorem mem_feed {calls : List (Call Rest)} {wallet : String} {window : WalletWindow Rest}
    (hwindow : (feed calls).get? wallet = some window) {t : Trade Rest} (ht : t ∈ window.trades) :
    ∃ c ∈ calls, c.trade = t := by
  rw [get?_feed] at hwindow
  split_ifs at hwindow
  obtain rfl := Option.some.inj hwindow
  obtain ⟨c, hc, htrade⟩ := mem_after ht
  exact ⟨c, List.mem_of_mem_filter hc, htrade⟩

theorem length_feed_le {calls : List (Call Rest)} {wallet : String} {window : WalletWindow Rest}
    (hwindow : (feed calls).get? wallet = some window) : window.trades.length ≤ calls.length := by
  rw [get?_feed] at hwindow
  split_ifs at hwindow
  obtain rfl := Option.some.inj hwindow
  exact (length_after_le _).trans (List.length_filter_le _ _)

theorem newest_get {calls : List (Call Rest)} (h : Undisplaced calls) {now : Instant}
    (hnow : ∀ c ∈ calls, c.now ≤ now ∧ c.now' ≤ now) :
    NewestEntries.Newest Trade.time MAX_TRADES_PER_WALLET_WINDOW
      ((calls.map Call.trade).filter fun t => now - timedelta WINDOW_TOLERANCE_HOURS ≤ t.time)
      ((after calls).window.get WINDOW_TOLERANCE_HOURS now) := by
  have hnewest := (newest_of_undisplaced h).expire (now - timedelta WINDOW_TOLERANCE_HOURS)
  rw [(after_ordered calls).dropWhile_eq_filter, inSpan_filter fun c hc => (hnow c hc).1] at hnewest
  have haccepted : (acceptedTrades calls).filter
      (fun t => now - timedelta WINDOW_TOLERANCE_HOURS ≤ t.time) =
      (calls.map Call.trade).filter fun t => now - timedelta WINDOW_TOLERANCE_HOURS ≤ t.time := by
    rw [acceptedTrades, List.filter_map, List.filter_map, List.filter_filter]
    congr 1
    apply List.filter_congr
    intro c hc
    rw [Bool.and_eq_left_iff_imp]
    intro hspan
    rw [Function.comp_apply, decide_eq_true_iff] at hspan
    exact decide_eq_true ((Int.sub_le_sub_right (hnow c hc).2 _).trans hspan)
  rw [haccepted] at hnewest
  exact hnewest

/-- Two scorers that handled the same trades, at whatever times, see the same close times. -/
theorem getWindow_times_eq {calls calls' : List (Call Rest)}
    (htrades : calls.map Call.trade = calls'.map Call.trade) {now : Instant}
    (hnow : ∀ c ∈ calls, c.now ≤ now ∧ c.now' ≤ now)
    (hnow' : ∀ c ∈ calls', c.now ≤ now ∧ c.now' ≤ now) {wallet : String}
    (h : Undisplaced (callsOf wallet calls)) (h' : Undisplaced (callsOf wallet calls')) {hours : ℤ}
    (hhours : hours ≤ WINDOW_TOLERANCE_HOURS) :
    (getWindow (feed calls) wallet hours now).map Trade.time =
      (getWindow (feed calls') wallet hours now).map Trade.time := by
  have hmem {calls : List (Call Rest)} {c : Call Rest} (hc : c ∈ callsOf wallet calls) :
      c ∈ calls := List.mem_of_mem_filter hc
  have hsame : (callsOf wallet calls).map Call.trade = (callsOf wallet calls').map Call.trade := by
    have hfilter (calls : List (Call Rest)) : (callsOf wallet calls).map Call.trade =
        (calls.map Call.trade).filter fun t => t.baseAccount = wallet := by
      rw [callsOf, List.filter_map]
      rfl
    rw [hfilter, hfilter, htrades]
  have hnewest := newest_get h fun c hc => hnow c (hmem hc)
  rw [hsame] at hnewest
  have htimes := hnewest.keys_eq (newest_get h' fun c hc => hnow' c (hmem hc)) (.refl _)
  rw [getWindow_feed, getWindow_feed, WalletWindow.get_eq hhours, WalletWindow.get_eq hhours]
  have hmap (l : List (Trade Rest)) :
      (l.filter fun t => now - timedelta hours ≤ t.time).map Trade.time =
        (l.map Trade.time).filter fun time => now - timedelta hours ≤ time := by
    rw [List.filter_map]
    rfl
  rw [hmap, hmap, htimes]

def callAt (time : ℤ) : Call Unit where
  trade := ⟨⟨time, none⟩, "GWALLET", ()⟩
  now := 0
  now' := 0

theorem evict_replicate {w : WalletWindow Unit} {n : ℕ}
    (h : w.trades = List.replicate n (callAt 1).trade) (time : ℤ) :
    (w.evict WINDOW_TOLERANCE_HOURS (callAt time).now).trades =
      List.replicate n (callAt 1).trade := by
  rw [WalletWindow.evict, h]
  cases n with
  | zero => rfl
  | succ n =>
    have hyoung : ¬ (callAt 1).trade.time < 0 - timedelta WINDOW_TOLERANCE_HOURS := by decide
    simp only [List.replicate_succ]
    rw [List.dropWhile_cons_of_neg]
    exact fun hold => hyoung (of_decide_eq_true hold)

theorem after_replicate {n : ℕ} (hn : n ≤ MAX_TRADES_PER_WALLET_WINDOW) :
    (after (List.replicate n (callAt 1))).window.trades = List.replicate n (callAt 1).trade ∧
      (after (List.replicate n (callAt 1))).Newest := by
  induction n with
  | zero => exact ⟨rfl, .nil⟩
  | succ n ih =>
    obtain ⟨htrades, hnewest⟩ := ih (Nat.le_of_succ_le hn)
    have hevicted := evict_replicate htrades 1
    have hroom : ¬ MAX_TRADES_PER_WALLET_WINDOW ≤ (List.replicate n (callAt 1).trade).length := by
      rw [List.length_replicate]
      exact not_le.mpr hn
    have haccepted : (callAt 1).accepted := by decide
    rw [List.replicate_succ', after_concat]
    constructor
    · rw [next_trades, if_pos haccepted]
      simp only [hevicted]
      rw [if_neg hroom, List.replicate_succ', insertLate_of_le]
      intro trade htrade
      rw [List.eq_of_mem_replicate htrade]
    · apply (next_newest_iff hnewest _).mpr
      rintro ⟨-, hfull, -⟩
      exact hroom (hevicted ▸ hfull)

/-- The trade that arrives at a full window of newer ones takes the place of one of them. -/
theorem older_trade_displaces : ¬ ∀ calls : List (Call Unit), (after calls).Newest := by
  intro h
  obtain ⟨htrades, hnewest⟩ := after_replicate le_rfl
  have hafter := h (List.replicate MAX_TRADES_PER_WALLET_WINDOW (callAt 1) ++ [callAt 0])
  rw [after_concat] at hafter
  apply (next_newest_iff hnewest _).mp hafter
  have hevicted := evict_replicate htrades 0
  refine ⟨by decide, ?_, (callAt 1).trade, ?_, by decide⟩
  · rw [hevicted, List.length_replicate]
  · rw [hevicted, List.head?_replicate]
    rfl

end RollingWindow
