import LedgerLens.LabelledRuns
import Mathlib.Algebra.Order.Field.Rat
import Mathlib.Algebra.Order.Floor.Ring
import Mathlib.Data.List.Dedup
import Mathlib.Data.Rat.Floor
import Mathlib.Logic.Function.Basic

/-!
# The alert stream of the SDK

`sdk/src/stream.ts` against the broadcasts of `api/ws_router.py`: subscriptions that outlive their
connection, over any interleaving of calls, timers and what happens to the sockets. Handlers and
listeners neither throw nor call the stream back.
-/
namespace AlertStream

open LabelledRuns

inductive ConnectionState where
  | connecting
  | open
  | reconnecting
  | closed
  deriving DecidableEq

structure ConnectionStateEvent where
  state : ConnectionState
  attempt : ℕ
  delayMs : Option ℤ
  closeCode : Option ℕ
  deriving DecidableEq

structure RiskScoreAlert where
  wallet : String
  assetPair : String
  score : ℚ
  benfordFlag : Bool
  mlFlag : Bool
  confidence : ℚ
  timestamp : String
  deriving DecidableEq

structure Options where
  initialDelayMs : ℚ
  maxDelayMs : ℚ

/-- The handler is known by a number. -/
structure Subscription where
  id : ℕ
  walletFilter : Option String
  deriving DecidableEq

/-! ## Sockets -/

inductive ReadyState where
  | connecting
  | open
  | closing
  | closed
  deriving DecidableEq

/-- A connection with the `wallet_filter` of its URL; `onclose` where its handler is set. -/
structure Socket where
  walletFilter : Option String
  readyState : ReadyState
  onclose : Bool

def Socket.Live (x : Socket) : Prop := x.readyState = .connecting ∨ x.readyState = .open

instance (x : Socket) : Decidable x.Live := inferInstanceAs (Decidable (_ ∨ _))

/-- The server sends an alert to a connection without a filter or with that of the wallet. -/
def Socket.Receives (x : Socket) (alert : RiskScoreAlert) : Prop :=
  x.readyState = .open ∧ (x.walletFilter = none ∨ x.walletFilter = some alert.wallet)

instance (x : Socket) (alert : RiskScoreAlert) : Decidable (x.Receives alert) :=
  inferInstanceAs (Decidable (_ ∧ _))

/-- `sockets` are numbered in the order of their creation. `events` are what the listeners are told,
`handled` the calls of handlers, `pongs` the sockets that a ping is answered on. -/
structure Stream where
  subscriptions : List Subscription
  socket : Option ℕ
  timer : Option ℤ
  attempt : ℕ
  stopped : Bool
  state : ConnectionState
  sockets : ℕ → Socket
  created : ℕ
  subscribed : ℕ
  events : List ConnectionStateEvent
  handled : List (ℕ × RiskScoreAlert)
  pongs : List ℕ

def Stream.init : Stream :=
  ⟨[], none, none, 0, true, .closed, fun _ => ⟨none, .closed, false⟩, 0, 0, [], [], []⟩

namespace Stream

def serverFilter (s : Stream) : Option String :=
  match (s.subscriptions.map Subscription.walletFilter).dedup with
  | [walletFilter] => walletFilter
  | _ => none

/-- An empty filter is not put into the URL. -/
def urlFilter (s : Stream) : Option String := s.serverFilter.filter (· ≠ "")

def setState (s : Stream) (e : ConnectionStateEvent) : Stream :=
  { s with state := e.state, events := s.events ++ [e] }

/-- A socket is made from the factory. -/
def dial (s : Stream) : Stream :=
  { s with
    socket := some s.created
    sockets := Function.update s.sockets s.created ⟨s.urlFilter, .connecting, true⟩
    created := s.created + 1 }

def connect (s : Stream) : Stream :=
  let s := { s with timer := none }
  if s.attempt = 0 then (s.setState ⟨.connecting, 0, none, none⟩).dial else s.dial

/-- `socket.onclose = null` and `socket.close()`. -/
def abandon (s : Stream) (i : ℕ) : Stream :=
  { s with
    sockets := Function.update s.sockets i
      { s.sockets i with
        readyState := if (s.sockets i).Live then .closing else (s.sockets i).readyState
        onclose := false } }

def close (s : Stream) : Stream :=
  let s := { s with stopped := true, timer := none }
  let s :=
    match s.socket with
    | none => s
    | some i => { s.abandon i with socket := none }
  s.setState ⟨.closed, 0, none, none⟩

def applySubscriptionChange (s : Stream) (previousFilter : Option String) : Stream :=
  if s.subscriptions = [] then s.close
  else if s.stopped then connect { s with stopped := false, attempt := 0 }
  else if s.serverFilter ≠ previousFilter then
    match s.socket with
    | none => s
    | some i => (s.abandon i).connect
  else s

def subscribe (s : Stream) (walletFilter : Option String) : Stream :=
  applySubscriptionChange
    { s with
      subscriptions := s.subscriptions ++ [⟨s.subscribed, walletFilter⟩]
      subscribed := s.subscribed + 1 }
    s.serverFilter

/-- The function that `subscribe` returns. -/
def unsubscribe (s : Stream) (id : ℕ) : Stream :=
  if id ∈ s.subscriptions.map Subscription.id then
    applySubscriptionChange
      { s with subscriptions := s.subscriptions.filter fun sub => decide (sub.id ≠ id) }
      s.serverFilter
  else s

/-- `random` is in the unit interval. -/
def scheduleReconnect (o : Options) (s : Stream) (closeCode : ℕ) (random : ℚ) : Stream :=
  let s := { s with attempt := s.attempt + 1 }
  let cap := min o.maxDelayMs (o.initialDelayMs * 2 ^ (s.attempt - 1))
  let delayMs := ⌊random * cap⌋
  { s.setState ⟨.reconnecting, s.attempt, some delayMs, some closeCode⟩ with
    timer := some delayMs }

def onopen (s : Stream) : Stream := { s with attempt := 0 }.setState ⟨.open, 0, none, none⟩

def onclose (o : Options) (s : Stream) (i closeCode : ℕ) (random : ℚ) : Stream :=
  if s.socket = some i then
    let s := { s with socket := none }
    if s.stopped then s else s.scheduleReconnect o closeCode random
  else s

end Stream

inductive Message where
  | ping
  | alert (alert : RiskScoreAlert)
  | other

def Subscription.Wants (sub : Subscription) (alert : RiskScoreAlert) : Prop :=
  sub.walletFilter = none ∨ sub.walletFilter = some alert.wallet

instance (sub : Subscription) (alert : RiskScoreAlert) : Decidable (sub.Wants alert) :=
  inferInstanceAs (Decidable (_ ∨ _))

def calls (subscriptions : List Subscription) (alert : RiskScoreAlert) :
    List (ℕ × RiskScoreAlert) :=
  (subscriptions.filter fun sub => decide (sub.Wants alert)).map fun sub => (sub.id, alert)

def Stream.handleMessage (s : Stream) (i : ℕ) : Message → Stream
  | .ping => { s with pongs := s.pongs ++ [i] }
  | .alert alert => { s with handled := s.handled ++ calls s.subscriptions alert }
  | .other => s

/-! ## Interleavings -/

/-- What `Math.random` returns. -/
abbrev Random := { r : ℚ // 0 ≤ r ∧ r < 1 }

inductive Event where
  | subscribe (walletFilter : Option String)
  | unsubscribe (id : ℕ)
  | close
  | timer
  | opened (i : ℕ)
  | received (i : ℕ) (m : Message)
  | dropped (i closeCode : ℕ) (random : Random)
  | broadcast (alert : RiskScoreAlert)

/-- The messages that a broadcast makes of the first sockets. -/
def Stream.deliver (alert : RiskScoreAlert) (s : Stream) : ℕ → Stream
  | 0 => s
  | i + 1 =>
    let s := s.deliver alert i
    if (s.sockets i).Receives alert then s.handleMessage i (.alert alert) else s

def Stream.setReady (s : Stream) (i : ℕ) (readyState : ReadyState) : Stream :=
  { s with sockets := Function.update s.sockets i { s.sockets i with readyState := readyState } }

/-- A socket opens while it is connecting, receives while it is open, and is dropped or has finished
closing before it is closed. -/
def step (o : Options) (s : Stream) : Event → Option Stream
  | .subscribe walletFilter => some (s.subscribe walletFilter)
  | .unsubscribe id => some (s.unsubscribe id)
  | .close => some s.close
  | .timer => if s.timer = none then none else some s.connect
  | .opened i =>
    if (s.sockets i).readyState = .connecting then some (s.setReady i .open).onopen else none
  | .received i m => if (s.sockets i).readyState = .open then some (s.handleMessage i m) else none
  | .dropped i closeCode random =>
    if (s.sockets i).readyState = .closed then none
    else if (s.sockets i).onclose then
      some ((s.setReady i .closed).onclose o i closeCode random)
    else some (s.setReady i .closed)
  | .broadcast alert => some (s.deliver alert s.created)

def Step (o : Options) (s : Stream) (e : Event) (t : Stream) : Prop := step o s e = some t

/-! ## Consistency -/

/-- How many times in a row the listeners were last told of a reconnect. -/
def streak (events : List ConnectionStateEvent) : ℕ :=
  (events.reverse.takeWhile fun e => decide (e.state = .reconnecting)).length

def Stream.shown (s : Stream) : ConnectionState :=
  if s.stopped then .closed
  else
    match s.socket with
    | none => .reconnecting
    | some i =>
      if (s.sockets i).readyState = .open then .open
      else if s.attempt = 0 then .connecting else .reconnecting

/-- Only the current socket is alive, and only sockets that were abandoned are closing. -/
structure Wired (s : Stream) : Prop where
  live : ∀ i, (s.sockets i).Live ↔ s.socket = some i
  attached : ∀ i, (s.sockets i).Live → (s.sockets i).onclose = true
  abandoned : ∀ i, (s.sockets i).readyState = .closing → (s.sockets i).onclose = false
  created : ∀ i, s.socket = some i → i < s.created

structure Numbered (s : Stream) : Prop where
  nodup : (s.subscriptions.map Subscription.id).Nodup
  below : ∀ id ∈ s.subscriptions.map Subscription.id, id < s.subscribed

structure Consistent (s : Stream) : Prop where
  wired : Wired s
  numbered : Numbered s
  filter : ∀ i, s.socket = some i → (s.sockets i).walletFilter = s.urlFilter
  idle : s.stopped = true → s.socket = none ∧ s.timer = none
  busy : s.stopped = false → s.subscriptions ≠ [] ∧ (s.socket = none ↔ s.timer ≠ none)
  state : s.state = s.shown
  attempt : streak s.events = if s.stopped then 0 else s.attempt
  opened : ∀ i, (s.sockets i).readyState = .open → s.attempt = 0

/-- What `connect` is called on. -/
structure Ready (s : Stream) : Prop where
  silent : ∀ i, ¬ (s.sockets i).Live
  abandoned : ∀ i, (s.sockets i).readyState = .closing → (s.sockets i).onclose = false
  numbered : Numbered s
  running : s.stopped = false
  subscriptions : s.subscriptions ≠ []
  state : s.attempt ≠ 0 → s.state = .reconnecting
  attempt : streak s.events = s.attempt

section

variable {o : Options} {s t : Stream} {e : Event} {i n : ℕ} {alert : RiskScoreAlert}
  {events : List ConnectionStateEvent} {event : ConnectionStateEvent}

theorem streak_concat_other (h : event.state ≠ .reconnecting) : streak (events ++ [event]) = 0 := by
  rw [streak, List.reverse_append, List.reverse_singleton, List.singleton_append,
    List.takeWhile_cons_of_neg (by simpa using h), List.length_nil]

theorem streak_concat_reconnecting (h : event.state = .reconnecting) :
    streak (events ++ [event]) = streak events + 1 := by
  rw [streak, List.reverse_append, List.reverse_singleton, List.singleton_append,
    List.takeWhile_cons_of_pos (by simpa using h), List.length_cons, streak]

theorem shown_of_socket (hstopped : s.stopped = false) (hsocket : s.socket = some i) :
    s.shown = if (s.sockets i).readyState = .open then .open
      else if s.attempt = 0 then .connecting else .reconnecting := by
  unfold Stream.shown
  rw [hstopped, if_neg (by decide), hsocket]

theorem shown_of_none (hstopped : s.stopped = false) (hsocket : s.socket = none) :
    s.shown = .reconnecting := by
  unfold Stream.shown
  rw [hstopped, if_neg (by decide), hsocket]

theorem setReady_sockets {readyState : ReadyState} (j : ℕ) : (s.setReady i readyState).sockets j =
    if j = i then { s.sockets i with readyState := readyState } else s.sockets j :=
  Function.update_apply _ _ _ _

theorem Ready.dial (h : Ready s) (htimer : s.timer = none)
    (hstate : s.state = if s.attempt = 0 then .connecting else .reconnecting) :
    Consistent s.dial := by
  have hdial (j : ℕ) : s.dial.sockets j =
      if j = s.created then ⟨s.urlFilter, .connecting, true⟩ else s.sockets j :=
    Function.update_apply _ _ _ _
  have hconnecting : ¬ (s.dial.sockets s.created).readyState = .open := by
    rw [hdial, if_pos rfl]
    exact nofun
  refine ⟨⟨fun j => ?_, fun j hj => ?_, fun j hj => ?_, fun j hj => ?_⟩,
    ⟨h.numbered.nodup, h.numbered.below⟩, fun j hj => ?_, fun hstopped => ?_, fun _ => ?_, ?_, ?_,
    fun j hj => ?_⟩
  · rw [hdial]
    split_ifs with hj
    · exact iff_of_true (.inl rfl) (congrArg some hj.symm)
    · exact iff_of_false (h.silent j) fun hsocket => hj (Option.some.inj hsocket).symm
  · rw [hdial] at hj ⊢
    split_ifs at hj ⊢
    · rfl
    · exact absurd hj (h.silent j)
  · rw [hdial] at hj ⊢
    split_ifs at hj ⊢
    exact h.abandoned j hj
  · cases hj
    exact Nat.lt_succ_self _
  · cases hj
    rw [hdial, if_pos rfl]
    rfl
  · exact absurd hstopped (by rw [show s.dial.stopped = s.stopped from rfl, h.running]; decide)
  · exact ⟨h.subscriptions, iff_of_false nofun fun htimer' => htimer' htimer⟩
  · have hshown := shown_of_socket (s := s.dial) h.running rfl
    exact hstate.trans (hshown.trans (if_neg hconnecting)).symm
  · change streak s.events = if s.stopped then 0 else s.attempt
    rw [h.running, if_neg (by decide), h.attempt]
  · rw [hdial] at hj
    split_ifs at hj
    exact absurd (.inr hj) (h.silent j)

theorem Ready.connect (h : Ready s) : Consistent s.connect := by
  unfold Stream.connect
  dsimp only
  split_ifs with hattempt
  · refine Ready.dial ⟨h.silent, h.abandoned, ⟨h.numbered.nodup, h.numbered.below⟩, h.running,
      h.subscriptions, fun hpos => absurd hattempt hpos, ?_⟩ rfl (if_pos hattempt).symm
    exact (streak_concat_other (by decide)).trans hattempt.symm
  · exact Ready.dial ⟨h.silent, h.abandoned, ⟨h.numbered.nodup, h.numbered.below⟩, h.running,
      h.subscriptions, h.state, h.attempt⟩ rfl ((h.state hattempt).trans (if_neg hattempt).symm)

theorem Wired.abandon (h : Wired s) (hi : s.socket = some i) :
    (∀ j, ¬ ((s.abandon i).sockets j).Live) ∧ ∀ j,
      ((s.abandon i).sockets j).readyState = .closing →
          ((s.abandon i).sockets j).onclose = false := by
  have hlive : (s.sockets i).Live := (h.live i).mpr hi
  have habandon (j : ℕ) : (s.abandon i).sockets j =
      if j = i then { s.sockets i with readyState := .closing, onclose := false }
      else s.sockets j := by
    unfold Stream.abandon
    rw [if_pos hlive]
    exact Function.update_apply _ _ _ _
  refine ⟨fun j hj => ?_, fun j hj => ?_⟩
  · rw [habandon] at hj
    split_ifs at hj with hij
    · rcases hj with hj | hj <;> cases hj
    · have hsocket := (h.live j).mp hj
      rw [hi] at hsocket
      exact hij (Option.some.inj hsocket).symm
  · rw [habandon] at hj ⊢
    split_ifs at hj ⊢
    · rfl
    · exact h.abandoned j hj

theorem consistent_stopped (hsilent : ∀ i, ¬ (s.sockets i).Live)
    (habandoned : ∀ i, (s.sockets i).readyState = .closing → (s.sockets i).onclose = false)
    (hnumbered : Numbered s) (hstopped : s.stopped = true) (htimer : s.timer = none)
    (hsocket : s.socket = none) : Consistent (s.setState ⟨.closed, 0, none, none⟩) where
  wired :=
    { live := fun i => iff_of_false (hsilent i) (by
        rw [show (s.setState ⟨.closed, 0, none, none⟩).socket = s.socket from rfl, hsocket]
        exact nofun)
      attached := fun i hi => absurd hi (hsilent i)
      abandoned := habandoned
      created := fun i hi => absurd (hsocket.symm.trans hi) nofun }
  numbered := ⟨hnumbered.nodup, hnumbered.below⟩
  filter i hi := absurd (hsocket.symm.trans hi) nofun
  idle _ := ⟨hsocket, htimer⟩
  busy hrunning := absurd (hstopped.symm.trans hrunning) (by decide)
  state := (if_pos hstopped).symm
  attempt := (streak_concat_other (by decide)).trans (if_pos hstopped).symm
  opened i hi := absurd (.inr hi) (hsilent i)

theorem Wired.close (h : Wired s) (hnumbered : Numbered s) : Consistent s.close := by
  unfold Stream.close
  dsimp only
  cases hsocket : s.socket with
  | none =>
    exact consistent_stopped (fun i hi => absurd ((h.live i).mp hi) (by rw [hsocket]; exact nofun))
      h.abandoned ⟨hnumbered.nodup, hnumbered.below⟩ rfl rfl rfl
  | some i =>
    obtain ⟨hsilent, habandoned⟩ := h.abandon hsocket
    exact consistent_stopped hsilent habandoned ⟨hnumbered.nodup, hnumbered.below⟩ rfl rfl rfl

theorem Consistent.applySubscriptionChange (h : Consistent s) {subscriptions : List Subscription}
    (hnumbered : Numbered { s with subscriptions := subscriptions, subscribed := n }) :
    Consistent (Stream.applySubscriptionChange
      { s with subscriptions := subscriptions, subscribed := n } s.serverFilter) := by
  unfold Stream.applySubscriptionChange
  dsimp only
  have hwired : Wired { s with subscriptions := subscriptions, subscribed := n } :=
    ⟨h.wired.live, h.wired.attached, h.wired.abandoned, h.wired.created⟩
  split_ifs with hempty hstopped hfilter
  · exact hwired.close hnumbered
  · have hattempt := h.attempt
    rw [if_pos hstopped] at hattempt
    have hsilent (i : ℕ) : ¬ (s.sockets i).Live := fun hi =>
      absurd ((h.wired.live i).mp hi) (by rw [(h.idle hstopped).1]; exact nofun)
    exact Ready.connect ⟨hsilent, h.wired.abandoned, ⟨hnumbered.nodup, hnumbered.below⟩,
      rfl, hempty,
      fun hpos => absurd rfl hpos, hattempt⟩
  · rw [Bool.not_eq_true] at hstopped
    have hattempt := h.attempt
    rw [hstopped, if_neg (by decide)] at hattempt
    split
    · rename_i hsocket
      exact ⟨hwired, hnumbered, fun i hi => absurd (hsocket.symm.trans hi) nofun,
        fun hidle => absurd (hstopped.symm.trans hidle) (by decide),
        fun _ => ⟨hempty, (h.busy hstopped).2⟩, h.state, h.attempt, h.opened⟩
    · rename_i i hsocket
      obtain ⟨hsilent, habandoned⟩ := hwired.abandon hsocket
      refine Ready.connect ⟨hsilent, habandoned, ⟨hnumbered.nodup, hnumbered.below⟩,
        hstopped, hempty,
        fun hpos => ?_, hattempt⟩
      -- A socket that is open has no attempts behind it.
      have hclosed : ¬ (s.sockets i).readyState = .open := fun hopen => hpos (h.opened i hopen)
      have hshown : s.shown = .reconnecting :=
        (shown_of_socket hstopped hsocket).trans ((if_neg hclosed).trans (if_neg hpos))
      exact h.state.trans hshown
  · rw [Bool.not_eq_true] at hstopped
    rw [not_not] at hfilter
    refine ⟨hwired, hnumbered, fun i hi => ?_,
      fun hidle => absurd (hstopped.symm.trans hidle) (by decide),
      fun _ => ⟨hempty, (h.busy hstopped).2⟩, h.state, h.attempt, h.opened⟩
    rw [Stream.urlFilter, hfilter]
    exact h.filter i hi

theorem Consistent.subscribe (h : Consistent s) (walletFilter : Option String) :
    Consistent (s.subscribe walletFilter) := by
  refine h.applySubscriptionChange ⟨?_, ?_⟩
  · rw [List.map_append]
    refine h.numbered.nodup.append (List.nodup_singleton _) ?_
    intro id hid hnew
    rw [List.mem_singleton.mp hnew] at hid
    exact lt_irrefl _ (h.numbered.below _ hid)
  · intro id hid
    rw [List.map_append, List.mem_append] at hid
    rcases hid with hid | hid
    · exact (h.numbered.below id hid).trans (Nat.lt_succ_self _)
    · rw [List.mem_singleton.mp hid]
      exact Nat.lt_succ_self _

theorem Consistent.unsubscribe (h : Consistent s) (id : ℕ) : Consistent (s.unsubscribe id) := by
  unfold Stream.unsubscribe
  split_ifs
  · have hsublist := List.filter_sublist (p := fun sub : Subscription => decide (sub.id ≠ id))
      (l := s.subscriptions)
    exact h.applySubscriptionChange ⟨h.numbered.nodup.sublist (hsublist.map _),
      fun id' hid' => h.numbered.below id' ((hsublist.map _).subset hid')⟩
  · exact h

theorem Consistent.timer (h : Consistent s) (htimer : s.timer ≠ none) : Consistent s.connect := by
  have hstopped : s.stopped = false := by
    by_contra hstopped
    exact htimer (h.idle (Bool.not_eq_false _ |>.mp hstopped)).2
  have hsocket := (h.busy hstopped).2.mpr htimer
  have hsilent (i : ℕ) : ¬ (s.sockets i).Live := fun hi =>
    absurd ((h.wired.live i).mp hi) (by rw [hsocket]; exact nofun)
  have hattempt := h.attempt
  rw [hstopped, if_neg (by decide)] at hattempt
  exact Ready.connect ⟨hsilent, h.wired.abandoned, h.numbered, hstopped, (h.busy hstopped).1,
    fun _ => h.state.trans (shown_of_none hstopped hsocket), hattempt⟩

theorem Consistent.running (h : Consistent s) (hi : (s.sockets i).Live) :
    s.socket = some i ∧ s.stopped = false := by
  have hsocket := (h.wired.live i).mp hi
  refine ⟨hsocket, ?_⟩
  by_contra hstopped
  exact absurd ((h.idle (Bool.not_eq_false _ |>.mp hstopped)).1.symm.trans hsocket) nofun

theorem Consistent.openUp (h : Consistent s) (hi : (s.sockets i).readyState = .connecting) :
    Consistent (s.setReady i .open).onopen := by
  obtain ⟨hsocket, hstopped⟩ := h.running (.inl hi)
  have hlive : (s.sockets i).Live := .inl hi
  have hsockets (j : ℕ) : (s.setReady i .open).onopen.sockets j =
      if j = i then { s.sockets i with readyState := .open } else s.sockets j :=
    setReady_sockets j
  refine ⟨⟨fun j => ?_, fun j hj => ?_, fun j hj => ?_, h.wired.created⟩,
    ⟨h.numbered.nodup, h.numbered.below⟩, fun j hj => ?_, h.idle, h.busy, ?_, ?_, fun _ _ => rfl⟩
  · rw [hsockets]
    split_ifs with hj
    · exact iff_of_true (.inr rfl) (hj ▸ hsocket)
    · exact h.wired.live j
  · rw [hsockets] at hj ⊢
    split_ifs at hj ⊢
    · exact h.wired.attached i hlive
    · exact h.wired.attached j hj
  · rw [hsockets] at hj ⊢
    split_ifs at hj ⊢
    exact h.wired.abandoned j hj
  · rw [hsockets]
    split_ifs
    · exact h.filter i hsocket
    · exact h.filter j hj
  · have hshown := shown_of_socket (s := (s.setReady i .open).onopen) hstopped hsocket
    refine (hshown.trans (if_pos ?_)).symm
    rw [hsockets, if_pos rfl]
  · refine (streak_concat_other (by decide)).trans ?_
    split_ifs <;> rfl

/-- A socket that is no longer there any more changes nothing else. -/
theorem Consistent.setReady_closed (h : Consistent s) (hi : ¬ (s.sockets i).Live) :
    Consistent (s.setReady i .closed) := by
  have hother (j : ℕ) (hj : s.socket = some j) : j ≠ i := by
    rintro rfl
    exact hi ((h.wired.live j).mpr hj)
  refine ⟨⟨fun j => ?_, fun j hj => ?_, fun j hj => ?_, h.wired.created⟩,
    ⟨h.numbered.nodup, h.numbered.below⟩, fun j hj => ?_, h.idle, h.busy, h.state.trans ?_,
    h.attempt, fun j hj => ?_⟩
  · rw [setReady_sockets]
    split_ifs with hj
    · refine iff_of_false (by rintro (hj | hj) <;> cases hj) fun hsocket => hother j hsocket hj
    · exact h.wired.live j
  · rw [setReady_sockets] at hj ⊢
    split_ifs at hj ⊢
    · rcases hj with hj | hj <;> cases hj
    · exact h.wired.attached j hj
  · rw [setReady_sockets] at hj ⊢
    split_ifs at hj ⊢
    exact h.wired.abandoned j hj
  · rw [setReady_sockets, if_neg (hother j hj)]
    exact h.filter j hj
  · cases hstopped : s.stopped with
    | true => exact (if_pos hstopped).trans (if_pos hstopped).symm
    | false =>
      cases hsocket : s.socket with
      | none =>
        have hshown := shown_of_none (s := s.setReady i .closed) hstopped hsocket
        exact (shown_of_none hstopped hsocket).trans hshown.symm
      | some j =>
        have hshown := shown_of_socket (s := s.setReady i .closed) hstopped hsocket
        rw [setReady_sockets, if_neg (hother j hsocket)] at hshown
        exact (shown_of_socket hstopped hsocket).trans hshown.symm
  · rw [setReady_sockets] at hj
    split_ifs at hj
    exact h.opened j hj

theorem Consistent.reconnect (h : Consistent s) (hi : (s.sockets i).Live) {closeCode : ℕ}
    {random : ℚ} :
    Consistent (Stream.scheduleReconnect o { s.setReady i .closed with socket := none } closeCode
      random) := by
  obtain ⟨hsocket, hstopped⟩ := h.running hi
  have hattempt := h.attempt
  rw [hstopped, if_neg (by decide)] at hattempt
  have hsilent (j : ℕ) : ¬ ((s.setReady i .closed).sockets j).Live := by
    rw [setReady_sockets]
    split_ifs with hj
    · rintro (hj | hj) <;> cases hj
    · intro hlive
      exact hj (Option.some.inj (((h.wired.live j).mp hlive).symm.trans hsocket))
  refine ⟨⟨fun j => iff_of_false (hsilent j) nofun, fun j hj => absurd hj (hsilent j),
    fun j hj => ?_, nofun⟩, ⟨h.numbered.nodup, h.numbered.below⟩, nofun,
    fun hidle => absurd (hstopped.symm.trans hidle) (by decide),
    fun _ => ⟨(h.busy hstopped).1, iff_of_true rfl nofun⟩, ?_, ?_,
    fun j hj => absurd (.inr hj) (hsilent j)⟩
  · change ((s.setReady i .closed).sockets j).readyState = _ at hj
    change ((s.setReady i .closed).sockets j).onclose = false
    rw [setReady_sockets] at hj ⊢
    split_ifs at hj ⊢
    exact h.wired.abandoned j hj
  · have hshown := shown_of_none (s := Stream.scheduleReconnect o
      { s.setReady i .closed with socket := none } closeCode random) hstopped rfl
    exact hshown.symm
  · have hrunning : ¬ s.stopped = true := by rw [hstopped]; decide
    calc streak _ = streak s.events + 1 := streak_concat_reconnecting rfl
      _ = s.attempt + 1 := congrArg (· + 1) hattempt
      _ = if s.stopped then 0 else s.attempt + 1 := (if_neg hrunning).symm

theorem Consistent.dropped (h : Consistent s) {closeCode : ℕ} {random : Random}
    (hstep : Step o s (.dropped i closeCode random) t) : Consistent t := by
  unfold Step step at hstep
  dsimp only at hstep
  split_ifs at hstep with hclosed honclose
  · cases hstep
    unfold Stream.onclose
    dsimp only
    split_ifs with hsocket hstopped
    · exact absurd ((h.idle hstopped).1.symm.trans hsocket) nofun
    · exact h.reconnect ((h.wired.live i).mpr hsocket)
    · exact h.setReady_closed fun hlive => hsocket ((h.wired.live i).mp hlive)
  · cases hstep
    exact h.setReady_closed fun hlive => honclose (h.wired.attached i hlive)

theorem deliver_eq (n : ℕ) :
    ∃ handled, s.deliver alert n = { s with handled := s.handled ++ handled } := by
  induction n with
  | zero => exact ⟨[], by rw [List.append_nil]; rfl⟩
  | succ n ih =>
    obtain ⟨handled, hhandled⟩ := ih
    unfold Stream.deliver
    dsimp only
    split_ifs
    · refine ⟨handled ++ calls s.subscriptions alert, ?_⟩
      rw [hhandled, ← List.append_assoc]
      rfl
    · exact ⟨handled, hhandled⟩

theorem Consistent.handled (h : Consistent s) (handled : List (ℕ × RiskScoreAlert))
    (pongs : List ℕ) : Consistent { s with handled := handled, pongs := pongs } :=
  ⟨⟨h.wired.live, h.wired.attached, h.wired.abandoned, h.wired.created⟩,
    ⟨h.numbered.nodup, h.numbered.below⟩, h.filter, h.idle, h.busy, h.state, h.attempt, h.opened⟩

theorem Consistent.step (h : Consistent s) (hstep : Step o s e t) : Consistent t := by
  cases e with
  | subscribe walletFilter =>
    cases hstep
    exact h.subscribe walletFilter
  | unsubscribe id =>
    cases hstep
    exact h.unsubscribe id
  | close =>
    cases hstep
    exact h.wired.close h.numbered
  | timer =>
    unfold Step AlertStream.step at hstep
    dsimp only at hstep
    split_ifs at hstep with htimer
    cases hstep
    exact h.timer htimer
  | opened i =>
    unfold Step AlertStream.step at hstep
    dsimp only at hstep
    split_ifs at hstep with hi
    cases hstep
    exact h.openUp hi
  | received i m =>
    unfold Step AlertStream.step at hstep
    dsimp only at hstep
    split_ifs at hstep
    cases hstep
    cases m with
    | ping => exact h.handled _ _
    | alert alert => exact h.handled _ _
    | other => exact h
  | dropped i closeCode random => exact h.dropped hstep
  | broadcast alert =>
    cases hstep
    obtain ⟨handled, hhandled⟩ : ∃ handled, s.deliver alert s.created =
        { s with handled := s.handled ++ handled } := deliver_eq s.created
    rw [hhandled]
    exact h.handled _ _

theorem Consistent.start : Consistent .init where
  wired := ⟨fun _ => iff_of_false (by rintro (h | h) <;> cases h) nofun,
    fun _ h => absurd h (by rintro (h | h) <;> cases h), fun _ _ => rfl, nofun⟩
  numbered := ⟨List.nodup_nil, nofun⟩
  filter := nofun
  idle _ := ⟨rfl, rfl⟩
  busy := nofun
  state := rfl
  attempt := rfl
  opened _ h := by cases h

theorem Consistent.run {es : List Event} (hrun : Run (Step o) .init es s) : Consistent s :=
  hrun.invariant (fun _ _ _ h hstep => h.step hstep) .start

/-! ## Broadcasts -/

theorem walletFilter_of_serverFilter {wallet : String} (h : s.serverFilter = some wallet)
    {sub : Subscription} (hsub : sub ∈ s.subscriptions) : sub.walletFilter = some wallet := by
  unfold Stream.serverFilter at h
  split at h
  · rename_i walletFilter hfilters
    have hmem : sub.walletFilter ∈ (s.subscriptions.map Subscription.walletFilter).dedup :=
      List.mem_dedup.mpr (List.mem_map_of_mem hsub)
    rw [hfilters, List.mem_singleton] at hmem
    rw [hmem, h]
  · cases h

theorem calls_of_filtered {wallet : String} (h : s.urlFilter = some wallet)
    (hwallet : wallet ≠ alert.wallet) : calls s.subscriptions alert = [] := by
  rw [calls, List.map_eq_nil_iff, List.filter_eq_nil_iff]
  intro sub hsub hwants
  have hserver := (Option.filter_eq_some_iff.mp h).1
  rcases of_decide_eq_true hwants with hnone | hsome
  · rw [walletFilter_of_serverFilter hserver hsub] at hnone
    cases hnone
  · rw [walletFilter_of_serverFilter hserver hsub] at hsome
    exact hwallet (Option.some.inj hsome)

theorem deliver_of_silent (h : ∀ j < n, ¬ (s.sockets j).Receives alert) :
    s.deliver alert n = s := by
  induction n with
  | zero => rfl
  | succ n ih =>
    unfold Stream.deliver
    dsimp only
    rw [ih fun j hj => h j (Nat.lt_succ_of_lt hj), if_neg (h n (Nat.lt_succ_self n))]

theorem deliver_of_receives (hi : i < n) (hreceives : (s.sockets i).Receives alert)
    (hothers : ∀ j, j ≠ i → ¬ (s.sockets j).Receives alert) :
    s.deliver alert n = s.handleMessage i (.alert alert) := by
  induction n with
  | zero => exact absurd hi (Nat.not_lt_zero i)
  | succ n ih =>
    unfold Stream.deliver
    dsimp only
    rcases Nat.lt_succ_iff_lt_or_eq.mp hi with hlt | rfl
    · rw [ih hlt]
      exact if_neg (hothers n (Nat.ne_of_gt hlt))
    · rw [deliver_of_silent fun j hj => hothers j (Nat.ne_of_lt hj), if_pos hreceives]

theorem Consistent.open_iff (h : Consistent s) :
    s.state = .open ↔ ∃ i, (s.sockets i).readyState = .open := by
  rw [h.state]
  constructor
  · intro hopen
    cases hstopped : s.stopped with
    | true =>
      unfold Stream.shown at hopen
      rw [if_pos hstopped] at hopen
      cases hopen
    | false =>
      cases hsocket : s.socket with
      | none =>
        rw [shown_of_none hstopped hsocket] at hopen
        cases hopen
      | some i =>
        rw [shown_of_socket hstopped hsocket] at hopen
        split_ifs at hopen with hi
        exact ⟨i, hi⟩
  · rintro ⟨i, hi⟩
    obtain ⟨hsocket, hstopped⟩ := h.running (.inr hi)
    rw [shown_of_socket hstopped hsocket, if_pos hi]

theorem Consistent.deliver_handled (h : Consistent s) : (s.deliver alert s.created).handled =
    s.handled ++ if s.state = .open then calls s.subscriptions alert else [] := by
  split_ifs with hopen
  · obtain ⟨i, hi⟩ := h.open_iff.mp hopen
    obtain ⟨hsocket, -⟩ := h.running (.inr hi)
    have hothers (j : ℕ) (hj : j ≠ i) : ¬ (s.sockets j).Receives alert := fun hreceives =>
      hj (Option.some.inj (((h.wired.live j).mp (.inr hreceives.1)).symm.trans hsocket))
    by_cases hreceives : (s.sockets i).Receives alert
    · rw [deliver_of_receives (h.wired.created i hsocket) hreceives hothers]
      rfl
    · have hfiltered : ∃ wallet, s.urlFilter = some wallet ∧ wallet ≠ alert.wallet := by
        rw [← h.filter i hsocket]
        cases hfilter : (s.sockets i).walletFilter with
        | none => exact absurd ⟨hi, .inl hfilter⟩ hreceives
        | some wallet =>
          refine ⟨wallet, rfl, ?_⟩
          rintro rfl
          exact hreceives ⟨hi, .inr hfilter⟩
      obtain ⟨wallet, hwallet, hne⟩ := hfiltered
      have hnone (j : ℕ) : ¬ (s.sockets j).Receives alert := by
        rcases eq_or_ne j i with rfl | hj
        · exact hreceives
        · exact hothers j hj
      rw [deliver_of_silent fun j _ => hnone j, calls_of_filtered hwallet hne, List.append_nil]
  · rw [deliver_of_silent, List.append_nil]
    intro j _ hreceives
    exact hopen (h.open_iff.mpr ⟨j, hreceives.1⟩)

/-! ## Delays -/

/-- Each reconnect is counted, and its delay doubles with the count up to the maximum. -/
def BacksOff (o : Options) (events : List ConnectionStateEvent) : Prop :=
  ∀ before event, before ++ [event] <+: events → event.state = .reconnecting →
    event.attempt = streak before + 1 ∧ ∃ delayMs : ℤ, event.delayMs = some delayMs ∧
      0 ≤ delayMs ∧ (delayMs : ℚ) ≤ min o.maxDelayMs (o.initialDelayMs * 2 ^ streak before)

theorem BacksOff.concat (h : BacksOff o events) (hnew : event.state = .reconnecting →
    event.attempt = streak events + 1 ∧ ∃ delayMs : ℤ, event.delayMs = some delayMs ∧
      0 ≤ delayMs ∧ (delayMs : ℚ) ≤ min o.maxDelayMs (o.initialDelayMs * 2 ^ streak events)) :
    BacksOff o (events ++ [event]) := by
  intro before event' hprefix
  rcases List.prefix_concat_iff.mp hprefix with heq | hprefix
  · obtain ⟨rfl, hlast⟩ := List.append_inj' heq rfl
    obtain rfl : event' = event := by simpa using hlast
    exact hnew
  · exact h before event' hprefix

/-- The listeners are told of something else than a reconnect, or of nothing. -/
def Quiet (events events' : List ConnectionStateEvent) : Prop :=
  events' = events ∨ ∃ event, events' = events ++ [event] ∧ event.state ≠ .reconnecting

theorem BacksOff.quiet (h : BacksOff o s.events) (hquiet : Quiet s.events t.events) :
    BacksOff o t.events := by
  rcases hquiet with hsame | ⟨event, hevent, hother⟩
  · rw [hsame]
    exact h
  · rw [hevent]
    exact h.concat fun hstate => absurd hstate hother

theorem quiet_connect : Quiet s.events s.connect.events := by
  unfold Stream.connect
  dsimp only
  split_ifs
  · exact .inr ⟨_, rfl, nofun⟩
  · exact .inl rfl

theorem quiet_close : Quiet s.events s.close.events := by
  unfold Stream.close
  dsimp only
  split <;> exact .inr ⟨_, rfl, nofun⟩

theorem quiet_applySubscriptionChange {previousFilter : Option String} :
    Quiet s.events (s.applySubscriptionChange previousFilter).events := by
  unfold Stream.applySubscriptionChange
  split_ifs
  · exact quiet_close
  · exact quiet_connect (s := { s with stopped := false, attempt := 0 })
  · split
    · exact .inl rfl
    · exact quiet_connect (s := s.abandon _)
  · exact .inl rfl

theorem delay_mem {cap : ℚ} (hcap : 0 ≤ cap) (random : Random) :
    0 ≤ ⌊random.1 * cap⌋ ∧ (⌊random.1 * cap⌋ : ℚ) ≤ cap :=
  ⟨Int.floor_nonneg.mpr (mul_nonneg random.2.1 hcap),
    (Int.floor_le _).trans (mul_le_of_le_one_left hcap random.2.2.le)⟩

theorem Consistent.backsOff_dropped (h : Consistent s) (hbacks : BacksOff o s.events)
    (hinitial : 0 ≤ o.initialDelayMs) (hmax : 0 ≤ o.maxDelayMs) {closeCode : ℕ} {random : Random}
    (hstep : Step o s (.dropped i closeCode random) t) : BacksOff o t.events := by
  unfold Step AlertStream.step at hstep
  dsimp only at hstep
  split_ifs at hstep
  · cases hstep
    unfold Stream.onclose
    dsimp only
    split_ifs with hsocket hstopped
    · exact hbacks
    · have hattempt : streak s.events = s.attempt := h.attempt.trans (if_neg hstopped)
      refine hbacks.concat fun _ => ⟨congrArg (· + 1) hattempt.symm, _, rfl, ?_⟩
      rw [hattempt]
      exact delay_mem (le_min hmax (mul_nonneg hinitial (pow_nonneg zero_le_two _))) random
    · exact hbacks
  · cases hstep
    exact hbacks

theorem Consistent.backsOff_step (h : Consistent s) (hbacks : BacksOff o s.events)
    (hinitial : 0 ≤ o.initialDelayMs) (hmax : 0 ≤ o.maxDelayMs) (hstep : Step o s e t) :
    BacksOff o t.events := by
  cases e with
  | subscribe walletFilter =>
    cases hstep
    exact hbacks.quiet (quiet_applySubscriptionChange (s := { s with
      subscriptions := s.subscriptions ++ [⟨s.subscribed, walletFilter⟩]
      subscribed := s.subscribed + 1 }))
  | unsubscribe id =>
    cases hstep
    unfold Stream.unsubscribe
    split_ifs
    · exact hbacks.quiet (quiet_applySubscriptionChange (s := { s with
        subscriptions := s.subscriptions.filter fun sub => decide (sub.id ≠ id) }))
    · exact hbacks
  | close =>
    cases hstep
    exact hbacks.quiet quiet_close
  | timer =>
    unfold Step AlertStream.step at hstep
    dsimp only at hstep
    split_ifs at hstep
    cases hstep
    exact hbacks.quiet quiet_connect
  | opened i =>
    unfold Step AlertStream.step at hstep
    dsimp only at hstep
    split_ifs at hstep
    cases hstep
    exact hbacks.concat nofun
  | received i m =>
    unfold Step AlertStream.step at hstep
    dsimp only at hstep
    split_ifs at hstep
    cases hstep
    cases m <;> exact hbacks
  | dropped i closeCode random => exact h.backsOff_dropped hbacks hinitial hmax hstep
  | broadcast alert =>
    cases hstep
    obtain ⟨handled, hhandled⟩ : ∃ handled, s.deliver alert s.created =
        { s with handled := s.handled ++ handled } := deliver_eq s.created
    rw [hhandled]
    exact hbacks

/-! ## Closing -/

def Event.ChangesSubscriptions : Event → Prop
  | .subscribe _ | .unsubscribe _ => True
  | .close | .timer | .opened _ | .received _ _ | .dropped _ _ _ | .broadcast _ => False

structure Silent (s t : Stream) : Prop where
  stopped : t.stopped = true
  created : t.created = s.created
  handled : t.handled = s.handled
  subscriptions : t.subscriptions = s.subscriptions

theorem Consistent.silent_step (h : Consistent s) (hstopped : s.stopped = true)
    (hstep : Step o s e t) (he : ¬ e.ChangesSubscriptions) : Silent s t := by
  have hsocket := (h.idle hstopped).1
  have hdead (i : ℕ) : ¬ (s.sockets i).Live := fun hi =>
    absurd (hsocket.symm.trans ((h.wired.live i).mp hi)) nofun
  cases e with
  | subscribe walletFilter => exact absurd trivial he
  | unsubscribe id => exact absurd trivial he
  | close =>
    cases hstep
    unfold Stream.close
    dsimp only
    split <;> exact ⟨rfl, rfl, rfl, rfl⟩
  | timer =>
    unfold Step AlertStream.step at hstep
    dsimp only at hstep
    rw [if_pos (h.idle hstopped).2] at hstep
    cases hstep
  | opened i =>
    unfold Step AlertStream.step at hstep
    dsimp only at hstep
    rw [if_neg fun hi => hdead i (.inl hi)] at hstep
    cases hstep
  | received i m =>
    unfold Step AlertStream.step at hstep
    dsimp only at hstep
    rw [if_neg fun hi => hdead i (.inr hi)] at hstep
    cases hstep
  | dropped i closeCode random =>
    unfold Step AlertStream.step at hstep
    dsimp only at hstep
    split_ifs at hstep
    · cases hstep
      unfold Stream.onclose
      have hother : (s.setReady i .closed).socket ≠ some i := by
        rw [show (s.setReady i .closed).socket = s.socket from rfl, hsocket]
        exact nofun
      rw [if_neg hother]
      exact ⟨hstopped, rfl, rfl, rfl⟩
    · cases hstep
      exact ⟨hstopped, rfl, rfl, rfl⟩
  | broadcast alert =>
    cases hstep
    rw [deliver_of_silent fun i _ hreceives => hdead i (.inr hreceives.1)]
    exact ⟨hstopped, rfl, rfl, rfl⟩

theorem Silent.run {es : List Event} (h : Consistent s) (hstopped : s.stopped = true)
    (hrun : Run (Step o) s es t) (hes : ∀ e ∈ es, ¬ e.ChangesSubscriptions) :
    Consistent t ∧ Silent s t := by
  induction hrun with
  | refl => exact ⟨h, hstopped, rfl, rfl, rfl⟩
  | tail _ hstep ih =>
    obtain ⟨hmid, hsilent⟩ := ih fun e he => hes e (List.mem_append_left _ he)
    have hlast := hmid.silent_step hsilent.stopped hstep
      (hes _ (List.mem_append_right _ (List.mem_singleton_self _)))
    exact ⟨hmid.step hstep, hlast.stopped, hlast.created.trans hsilent.created,
      hlast.handled.trans hsilent.handled, hlast.subscriptions.trans hsilent.subscriptions⟩

theorem Consistent.opens (h : Consistent s) (hi : (s.sockets i).Live) :
    ∃ es t, Run (Step o) s es t ∧ t.state = .open ∧ t.subscriptions = s.subscriptions ∧
      es.length ≤ 1 ∧ ∀ e ∈ es, ¬ e.ChangesSubscriptions := by
  rcases hi with hconnecting | hopen
  · have hstep : Step o s (.opened i) (s.setReady i .open).onopen := if_pos hconnecting
    exact ⟨_, _, .single hstep, rfl, rfl, le_rfl, by simp [Event.ChangesSubscriptions]⟩
  · exact ⟨[], s, .refl s, h.open_iff.mpr ⟨i, hopen⟩, rfl, Nat.zero_le _, nofun⟩

end

/-- In every reachable state a broadcast calls the handlers of the subscriptions that want it, each
of them once and in their order, where the stream says it is open, and none where it does not. -/
theorem broadcast_handled {o : Options} {s t : Stream} {es : List Event} {alert : RiskScoreAlert}
    (hrun : Run (Step o) .init es s) (hstep : Step o s (.broadcast alert) t) :
    t.handled = s.handled ++ (if s.state = .open then calls s.subscriptions alert else []) ∧
      (s.subscriptions.map Subscription.id).Nodup := by
  have h := Consistent.run hrun
  cases hstep
  exact ⟨h.deliver_handled, h.numbered.nodup⟩

def options : Options := ⟨500, 30000⟩

def subscribed : Stream := Stream.init.subscribe (some "G")

def connected : Stream := (subscribed.setReady 0 .open).onopen

def alerted : RiskScoreAlert := ⟨"G", "XLM/USDC", 90, true, true, 9 / 10, "2026-01-01T00:00:00Z"⟩

theorem run_connected : Run (Step options) .init [.subscribe (some "G"), .opened 0] connected := by
  have hsubscribe : Step options .init (.subscribe (some "G")) subscribed := rfl
  have hopen : Step options subscribed (.opened 0) connected := rfl
  exact (Run.single hsubscribe).tail hopen

theorem broadcast_handled_once :
    (connected.deliver alerted connected.created).handled = connected.handled ++
        (if connected.state = .open then calls connected.subscriptions alerted else []) ∧
      (connected.subscriptions.map Subscription.id).Nodup :=
  broadcast_handled run_connected rfl

/-- In every run the reconnects in a row are counted from one, and the delay before each is at most
the initial delay, doubled with each of them, and the maximum. -/
theorem run_backsOff {o : Options} {s : Stream} {es : List Event} (hinitial : 0 ≤ o.initialDelayMs)
    (hmax : 0 ≤ o.maxDelayMs) (hrun : Run (Step o) .init es s) : BacksOff o s.events := by
  have hboth : Consistent s ∧ BacksOff o s.events := by
    refine Run.invariant (I := fun s => Consistent s ∧ BacksOff o s.events)
      (fun _ _ _ h hstep => ?_) hrun ⟨.start, ?_⟩
    · exact ⟨h.1.step hstep, h.1.backsOff_step h.2 hinitial hmax hstep⟩
    · intro before event hprefix
      exact absurd (List.prefix_nil.mp hprefix) (List.append_ne_nil_of_right_ne_nil _ nofun)
  exact hboth.2

def lost : Stream :=
  Stream.scheduleReconnect options
    { subscribed.setReady 0 .closed with socket := none } 1006 (1 / 2)

theorem run_lost : Run (Step options) .init
    [.subscribe (some "G"), .dropped 0 1006 ⟨1 / 2, by norm_num, by norm_num⟩] lost := by
  have hsubscribe : Step options .init (.subscribe (some "G")) subscribed := rfl
  have hdrop : Step options subscribed
      (.dropped 0 1006 ⟨1 / 2, by norm_num, by norm_num⟩) lost := rfl
  exact (Run.single hsubscribe).tail hdrop

theorem run_backsOff_lost : BacksOff options lost.events :=
  run_backsOff (by decide +kernel) (by decide +kernel) run_lost

/-- In every reachable state one socket at the most is alive. A stream that was not closed is open
again after two steps of its environment at the most, with all its subscriptions; one that was
closed makes no connection and calls no handler until its subscriptions change. -/
theorem run_recovers {o : Options} {s : Stream} {es : List Event}
    (hrun : Run (Step o) .init es s) :
    (∀ i j, (s.sockets i).Live → (s.sockets j).Live → i = j) ∧
      (s.stopped = false → ∃ es' t, Run (Step o) s es' t ∧ t.state = .open ∧
        t.subscriptions = s.subscriptions ∧ es'.length ≤ 2 ∧
          ∀ e ∈ es', ¬ e.ChangesSubscriptions) ∧
      (s.stopped = true → ∀ es' t, Run (Step o) s es' t →
        (∀ e ∈ es', ¬ e.ChangesSubscriptions) →
          t.state = .closed ∧ t.created = s.created ∧ t.handled = s.handled) := by
  have h := Consistent.run hrun
  refine ⟨fun i j hi hj => ?_, fun hstopped => ?_, fun hstopped es' t hrun' hes => ?_⟩
  · exact Option.some.inj (((h.wired.live i).mp hi).symm.trans ((h.wired.live j).mp hj))
  · by_cases htimer : s.timer = none
    · have hsocket : s.socket ≠ none := fun hsocket =>
        (h.busy hstopped).2.mp hsocket htimer
      obtain ⟨i, hi⟩ := Option.ne_none_iff_exists'.mp hsocket
      obtain ⟨es', t, hrun', hopen, hsame, hlength, hes⟩ :=
        h.opens (o := o) ((h.wired.live i).mpr hi)
      exact ⟨es', t, hrun', hopen, hsame, hlength.trans (by decide), hes⟩
    · have hstep : Step o s .timer s.connect := if_neg htimer
      have hnext := h.step hstep
      have hsocket : s.connect.socket = some s.created := by
        unfold Stream.connect
        dsimp only
        split_ifs <;> rfl
      have hkeep : s.connect.subscriptions = s.subscriptions := by
        unfold Stream.connect
        dsimp only
        split_ifs <;> rfl
      obtain ⟨es', t, hrun', hopen, hsame, hlength, hes⟩ :=
        hnext.opens (o := o) ((hnext.wired.live _).mpr hsocket)
      refine ⟨[.timer] ++ es', t, (Run.single hstep).append hrun', hopen, hsame.trans hkeep, ?_, ?_⟩
      · rw [List.length_append, List.length_singleton]
        omega
      · intro e he
        rcases List.mem_append.mp he with he | he
        · rw [List.mem_singleton.mp he]
          exact fun hchange => hchange
        · exact hes e he
  · obtain ⟨ht, hsilent⟩ := Silent.run h hstopped hrun' hes
    exact ⟨ht.state.trans (if_pos hsilent.stopped), hsilent.created, hsilent.handled⟩

theorem run_recovers_lost :
    (∀ i j, (lost.sockets i).Live → (lost.sockets j).Live → i = j) ∧
      (lost.stopped = false → ∃ es' t, Run (Step options) lost es' t ∧ t.state = .open ∧
        t.subscriptions = lost.subscriptions ∧ es'.length ≤ 2 ∧
          ∀ e ∈ es', ¬ e.ChangesSubscriptions) ∧
      (lost.stopped = true → ∀ es' t, Run (Step options) lost es' t →
        (∀ e ∈ es', ¬ e.ChangesSubscriptions) →
          t.state = .closed ∧ t.created = lost.created ∧ t.handled = lost.handled) :=
  run_recovers run_lost

end AlertStream
