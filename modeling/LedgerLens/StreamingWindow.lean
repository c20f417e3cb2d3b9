import LedgerLens.Doubles
import LedgerLens.KeyedTotals
import Mathlib.Algebra.Order.Field.Rat
import Mathlib.Data.Finset.Max
import Mathlib.Data.List.DropRight
import Mathlib.Tactic.Linarith

/-!
# The windows of the streaming features

`WindowState` of `detection/streaming_features.py`: running aggregates over the trades of a rolling
window, kept up by adding each trade and evicting from the front of the deque, against the same
aggregates computed from the trades in the window.
-/
namespace StreamingWindow

open Doubles KeyedTotals

/-- What the engine takes from a trade for one wallet. The base amount of a trade is a positive
double, and digits count from zero. -/
structure Entry where
  tsSec : ℤ
  amount : ℚ
  cp : String
  hour : ℤ
  gave : String
  got : String
  selfMatch : Bool
  digit : Option (Fin 9)
  minuteKey : ℤ
  hourBucket : ℤ
  amount_pos : 0 < amount
  amount_double : toDouble amount = amount
  deriving DecidableEq

def Entry.leg (e : Entry) : String × String := (e.gave, e.got)

def Entry.offHours (e : Entry) : Bool := decide (0 ≤ e.hour ∧ e.hour < 6)

def RECENT_LEGS_WINDOW : ℕ := 20

@[ext] structure WindowState where
  windowSec : ℤ
  trades : List Entry
  amountSum : ℚ
  tradeCount : ℕ
  cpVolume : Totals String ℚ
  digitHistogram : Fin 9 → ℕ
  digitCount : ℕ
  selfMatchCount : ℕ
  offHoursCount : ℕ
  minuteBuckets : Totals ℤ ℤ
  hourlyVolume : Totals ℤ ℚ
  recentLegs : List (String × String)

namespace WindowState

def init (windowSec : ℤ) : WindowState where
  windowSec := windowSec
  trades := []
  amountSum := 0
  tradeCount := 0
  cpVolume := ∅
  digitHistogram _ := 0
  digitCount := 0
  selfMatchCount := 0
  offHoursCount := 0
  minuteBuckets := ∅
  hourlyVolume := ∅
  recentLegs := []

def add (s : WindowState) (e : Entry) : WindowState where
  windowSec := s.windowSec
  trades := s.trades ++ [e]
  amountSum := toDouble (s.amountSum + e.amount)
  tradeCount := s.tradeCount + 1
  cpVolume := credit toDouble s.cpVolume e.cp e.amount
  digitHistogram d := if e.digit = some d then s.digitHistogram d + 1 else s.digitHistogram d
  digitCount := if e.digit.isSome then s.digitCount + 1 else s.digitCount
  selfMatchCount := if e.selfMatch then s.selfMatchCount + 1 else s.selfMatchCount
  offHoursCount := if e.offHours then s.offHoursCount + 1 else s.offHoursCount
  minuteBuckets := credit id s.minuteBuckets e.minuteKey 1
  hourlyVolume := credit toDouble s.hourlyVolume e.hourBucket e.amount
  recentLegs := (s.recentLegs ++ [e.leg]).rtake RECENT_LEGS_WINDOW

/-- The legs are left as they are. -/
def remove (s : WindowState) (e : Entry) : WindowState :=
  { s with
    amountSum := max 0 (toDouble (s.amountSum - e.amount))
    tradeCount := s.tradeCount - 1
    cpVolume := debit toDouble s.cpVolume e.cp e.amount
    digitHistogram := fun d =>
      if e.digit = some d then s.digitHistogram d - 1 else s.digitHistogram d
    digitCount := if e.digit.isSome then s.digitCount - 1 else s.digitCount
    selfMatchCount := if e.selfMatch then s.selfMatchCount - 1 else s.selfMatchCount
    offHoursCount := if e.offHours then s.offHoursCount - 1 else s.offHoursCount
    minuteBuckets := debit id s.minuteBuckets e.minuteKey 1
    hourlyVolume := debit toDouble s.hourlyVolume e.hourBucket e.amount }

/-- `while self.trades and self.trades[0][0] <= cutoff`. -/
def evict (cutoff : ℤ) : List Entry → WindowState → WindowState
  | [], s => s
  | e :: rest, s =>
    if e.tsSec ≤ cutoff then evict cutoff rest ({ s with trades := rest }.remove e) else s

def update (s : WindowState) (e : Entry) : WindowState :=
  (evict (e.tsSec - s.windowSec) s.trades s).add e

end WindowState

open WindowState

def run (windowSec : ℤ) (received : List Entry) : WindowState :=
  received.foldl update (.init windowSec)

def recomputed (windowSec : ℤ) (trades : List Entry) : WindowState where
  windowSec := windowSec
  trades := trades
  amountSum := roundedSum toDouble (trades.map Entry.amount)
  tradeCount := trades.length
  cpVolume := totals toDouble Entry.cp Entry.amount trades
  digitHistogram d := trades.countP fun e => e.digit = some d
  digitCount := trades.countP fun e => e.digit.isSome
  selfMatchCount := trades.countP Entry.selfMatch
  offHoursCount := trades.countP Entry.offHours
  minuteBuckets := totals id Entry.minuteKey (fun _ => 1) trades
  hourlyVolume := totals toDouble Entry.hourBucket Entry.amount trades
  recentLegs := (trades.map Entry.leg).rtake RECENT_LEGS_WINDOW

def currentTime (received : List Entry) : Option ℤ := (received.map Entry.tsSec).max?

def inside (windowSec : ℤ) (received : List Entry) : List Entry :=
  received.filter fun e => ∀ t ∈ currentTime received, t - windowSec < e.tsSec ∧ e.tsSec ≤ t

def Expired (windowSec : ℤ) (received : List Entry) (e : Entry) : Prop :=
  ∃ e' ∈ received, e.tsSec ≤ e'.tsSec - windowSec

instance (windowSec : ℤ) (received : List Entry) (e : Entry) :
    Decidable (Expired windowSec received e) :=
  inferInstanceAs (Decidable (∃ e' ∈ received, _))

def ExpiredFirst (windowSec : ℤ) (received : List Entry) : Prop :=
  received.Pairwise fun a b => Expired windowSec received b → Expired windowSec received a

def LegsKept (windowSec : ℤ) (received : List Entry) : Prop :=
  (∀ e ∈ received, ¬ Expired windowSec received e) ∨
    RECENT_LEGS_WINDOW ≤ (inside windowSec received).length

instance (windowSec : ℤ) (received : List Entry) : Decidable (ExpiredFirst windowSec received) :=
  inferInstanceAs (Decidable (received.Pairwise _))

instance (windowSec : ℤ) (received : List Entry) : Decidable (LegsKept windowSec received) :=
  inferInstanceAs (Decidable (_ ∨ _))

/-- The amounts of every stretch of the trades, of all, of one counterparty or of one hour, have a
double for their sum. -/
structure ExactVolumes (trades : List Entry) : Prop where
  all : ExactSums toDouble (trades.map Entry.amount)
  cp : ∀ k, ExactSums toDouble (amountsOf Entry.cp Entry.amount trades k)
  hour : ∀ k, ExactSums toDouble (amountsOf Entry.hourBucket Entry.amount trades k)

/-- No trade has left the window, or the sums over trades received in a row are exact where none of
the trades is as late as the end of the window that starts with the first. -/
def VolumesKept (windowSec : ℤ) (received : List Entry) : Prop :=
  (∀ e ∈ received, ¬ Expired windowSec received e) ∨
    ∀ first rest, first :: rest <:+: received → (∀ e ∈ rest, e.tsSec < first.tsSec + windowSec) →
      ExactVolumes (first :: rest)

variable {windowSec : ℤ} {received : List Entry} {e : Entry}

theorem rtake_concat_rtake {α : Type} (l : List α) (a : α) (n : ℕ) :
    (l.rtake n ++ [a]).rtake n = (l ++ [a]).rtake n := by
  cases n with
  | zero => rw [List.rtake_zero, List.rtake_zero]
  | succ n =>
    rw [List.rtake_concat_succ, List.rtake_concat_succ]
    simp only [List.rtake_eq_reverse_take_reverse, List.reverse_reverse, List.take_take]
    rw [min_eq_left (Nat.le_succ n)]

theorem add_recomputed (trades legs : List Entry) (e : Entry) :
    { recomputed windowSec trades with
      recentLegs := (legs.map Entry.leg).rtake RECENT_LEGS_WINDOW }.add e =
    { recomputed windowSec (trades ++ [e]) with
      recentLegs := ((legs ++ [e]).map Entry.leg).rtake RECENT_LEGS_WINDOW } := by
  apply WindowState.ext
  · rfl
  · rfl
  · simp only [add, recomputed, List.map_append]
    exact (roundedSum_concat _ _).symm
  · simp [add, recomputed]
  · exact (totals_concat _ _).symm
  · funext d
    simp only [add, recomputed, List.countP_append, List.countP_singleton]
    split_ifs <;> simp_all
  · simp only [add, recomputed, List.countP_append, List.countP_singleton]
    split_ifs <;> simp_all
  · simp only [add, recomputed, List.countP_append, List.countP_singleton]
    split_ifs <;> simp_all
  · simp only [add, recomputed, List.countP_append, List.countP_singleton]
    split_ifs <;> simp_all
  · exact (totals_concat _ _).symm
  · exact (totals_concat _ _).symm
  · rw [List.map_append]
    exact rtake_concat_rtake _ _ _

theorem ExactVolumes.of_part {trades trades' : List Entry} (h : ExactVolumes trades)
    (hin : trades' <:+: trades) : ExactVolumes trades' where
  all := h.all.of_part (hin.map _)
  cp k := (h.cp k).of_part ((hin.filter _).map _)
  hour k := (h.hour k).of_part ((hin.filter _).map _)

/-- Evicting the first trade undoes it, but for the legs. -/
theorem remove_recomputed {trades : List Entry} (hexact : ExactVolumes (e :: trades))
    (legs : List (String × String)) :
    { recomputed windowSec (e :: trades) with trades := trades, recentLegs := legs }.remove e =
    { recomputed windowSec trades with recentLegs := legs } := by
  apply WindowState.ext
  · rfl
  · rfl
  · have hsum : 0 ≤ roundedSum toDouble (trades.map Entry.amount) := by
      rw [roundedSum_eq_sum (hexact.of_part (List.suffix_cons e trades).isInfix).all]
      apply List.sum_nonneg
      intro a ha
      obtain ⟨e', -, rfl⟩ := List.mem_map.mp ha
      exact e'.amount_pos.le
    simp only [remove, recomputed, List.map_cons]
    rw [rnd_roundedSum_cons_sub hexact.all, max_eq_right hsum]
  · simp [remove, recomputed]
  · exact debit_totals (fun e' _ => e'.amount_pos) (hexact.cp e.cp)
  · funext d
    simp only [remove, recomputed, List.countP_cons]
    split_ifs <;> simp_all
  · simp only [remove, recomputed, List.countP_cons]
    split_ifs <;> simp_all
  · simp only [remove, recomputed, List.countP_cons]
    split_ifs <;> simp_all
  · simp only [remove, recomputed, List.countP_cons]
    split_ifs <;> simp_all
  · exact debit_totals (fun _ _ => one_pos) (exactSums_id _)
  · exact debit_totals (fun e' _ => e'.amount_pos) (hexact.hour e.hourBucket)
  · rfl

theorem evict_recomputed (cutoff : ℤ) {trades : List Entry} (hexact : ExactVolumes trades)
    (legs : List (String × String)) :
    evict cutoff trades { recomputed windowSec trades with recentLegs := legs } =
      { recomputed windowSec (trades.dropWhile fun e => e.tsSec ≤ cutoff) with
        recentLegs := legs } := by
  induction trades with
  | nil => rfl
  | cons e trades ih =>
    rw [evict]
    by_cases hexpired : e.tsSec ≤ cutoff
    · rw [if_pos hexpired, List.dropWhile_cons_of_pos (by simpa using hexpired),
        ← ih (hexact.of_part (List.suffix_cons e trades).isInfix)]
      congr 1
      exact remove_recomputed hexact legs
    · rw [if_neg hexpired, List.dropWhile_cons_of_neg (by simpa using hexpired)]

def deque (windowSec : ℤ) (received : List Entry) : List Entry :=
  received.foldl
    (fun q e => (q.dropWhile fun e' => e'.tsSec ≤ e.tsSec - windowSec) ++ [e]) []

theorem deque_concat (received : List Entry) (e : Entry) : deque windowSec (received ++ [e]) =
    ((deque windowSec received).dropWhile fun e' => e'.tsSec ≤ e.tsSec - windowSec) ++ [e] := by
  rw [deque, List.foldl_append]
  rfl

theorem exists_evicted (windowSec : ℤ) (received : List Entry) :
    ∃ out, received = out ++ deque windowSec received ∧
      ∀ e ∈ out, Expired windowSec received e := by
  induction received using List.reverseRecOn with
  | nil => exact ⟨[], rfl, by simp⟩
  | append_singleton received e ih =>
    obtain ⟨out, hsplit, hout⟩ := ih
    refine ⟨out ++ (deque windowSec received).takeWhile fun e' => e'.tsSec ≤ e.tsSec - windowSec,
      ?_, ?_⟩
    · rw [deque_concat, List.append_assoc, ← List.append_assoc _ _ [e],
        List.takeWhile_append_dropWhile, ← List.append_assoc, ← hsplit]
    · intro e' he'
      rcases List.mem_append.mp he' with he' | he'
      · obtain ⟨m, hm, hle⟩ := hout e' he'
        exact ⟨m, List.mem_append_left _ hm, hle⟩
      · exact ⟨e, by simp, by simpa using List.mem_takeWhile_imp he'⟩

theorem front_inside (hwindow : 0 < windowSec) (received : List Entry) {front : Entry}
    {rest : List Entry} (hfront : deque windowSec received = front :: rest) :
    ∀ e ∈ front :: rest, e.tsSec - windowSec < front.tsSec := by
  induction received using List.reverseRecOn generalizing front rest with
  | nil => cases hfront
  | append_singleton received e ih =>
    rw [deque_concat] at hfront
    cases hqueue : deque windowSec received with
    | nil =>
      rw [hqueue] at hfront
      obtain ⟨rfl, rfl⟩ := List.cons.inj hfront
      intro e' he'
      obtain rfl := List.mem_singleton.mp he'
      omega
    | cons old behind =>
      have hold := ih hqueue
      rw [hqueue] at hfront
      by_cases hstays : old.tsSec ≤ e.tsSec - windowSec
      · rw [List.dropWhile_cons_of_pos (by simpa using hstays)] at hfront
        -- The old front goes, and what comes to the front is younger than it.
        cases hleft : behind.dropWhile fun e' => e'.tsSec ≤ e.tsSec - windowSec with
        | nil =>
          rw [hleft] at hfront
          obtain ⟨rfl, rfl⟩ := List.cons.inj hfront
          intro e' he'
          obtain rfl := List.mem_singleton.mp he'
          omega
        | cons next later =>
          rw [hleft] at hfront
          obtain ⟨rfl, rfl⟩ := List.cons.inj hfront
          have hnext : e.tsSec - windowSec < next.tsSec := by
            have hhead := List.head?_dropWhile_not (fun e' => e'.tsSec ≤ e.tsSec - windowSec) behind
            rw [hleft] at hhead
            simpa using hhead
          intro e' he'
          rcases List.mem_append.mp (List.cons_append ▸ he') with he' | he'
          · have hmem : e' ∈ old :: behind := by
              apply List.mem_cons_of_mem
              exact (List.dropWhile_suffix _).subset (hleft ▸ he')
            have := hold e' hmem
            omega
          · obtain rfl := List.mem_singleton.mp he'
            exact hnext
      · rw [List.dropWhile_cons_of_neg (by simpa using hstays)] at hfront
        obtain ⟨rfl, rfl⟩ := List.cons.inj hfront
        intro e' he'
        rcases List.mem_append.mp (List.cons_append ▸ he') with he' | he'
        · exact hold e' he'
        · obtain rfl := List.mem_singleton.mp he'
          omega

theorem run_concat (received : List Entry) (e : Entry) :
    run windowSec (received ++ [e]) = (run windowSec received).update e := by
  rw [run, List.foldl_append]
  rfl

theorem evict_trades (cutoff : ℤ) {trades : List Entry} {s : WindowState} (h : s.trades = trades) :
    (evict cutoff trades s).trades = trades.dropWhile fun e => e.tsSec ≤ cutoff := by
  induction trades generalizing s with
  | nil => exact h
  | cons e trades ih =>
    rw [evict]
    by_cases hexpired : e.tsSec ≤ cutoff
    · rw [if_pos hexpired, List.dropWhile_cons_of_pos (by simpa using hexpired)]
      exact ih rfl
    · rw [if_neg hexpired, List.dropWhile_cons_of_neg (by simpa using hexpired)]
      exact h

theorem evict_windowSec_recentLegs (cutoff : ℤ) (trades : List Entry) (s : WindowState) :
    (evict cutoff trades s).windowSec = s.windowSec ∧
      (evict cutoff trades s).recentLegs = s.recentLegs := by
  induction trades generalizing s with
  | nil => exact ⟨rfl, rfl⟩
  | cons e trades ih =>
    rw [evict]
    split_ifs with hexpired
    · exact ih _
    · exact ⟨rfl, rfl⟩

theorem run_trades (windowSec : ℤ) (received : List Entry) :
    (run windowSec received).windowSec = windowSec ∧
      (run windowSec received).trades = deque windowSec received ∧
      (run windowSec received).recentLegs =
        (received.map Entry.leg).rtake RECENT_LEGS_WINDOW := by
  induction received using List.reverseRecOn with
  | nil => exact ⟨rfl, rfl, rfl⟩
  | append_singleton received e ih =>
    obtain ⟨hwindowSec, htrades, hlegs⟩ := ih
    obtain ⟨hsame, hkept⟩ := evict_windowSec_recentLegs
      (e.tsSec - (run windowSec received).windowSec) (run windowSec received).trades
      (run windowSec received)
    rw [run_concat, deque_concat]
    refine ⟨?_, ?_, ?_⟩
    · exact hsame.trans hwindowSec
    · rw [update, add, evict_trades _ rfl, htrades, hwindowSec]
    · rw [update, add, hkept, hlegs, List.map_append]
      exact rtake_concat_rtake _ _ _

theorem Expired.append (h : Expired windowSec received e) (e' : Entry) :
    Expired windowSec (received ++ [e']) e := by
  obtain ⟨later, hlater, hle⟩ := h
  exact ⟨later, List.mem_append_left _ hlater, hle⟩

theorem run_eq_of_none_expired (hnone : ∀ e ∈ received, ¬ Expired windowSec received e) :
    run windowSec received = recomputed windowSec received := by
  induction received using List.reverseRecOn with
  | nil => rfl
  | append_singleton received e ih =>
    have hbefore : ∀ e' ∈ received, ¬ Expired windowSec received e' := by
      intro e' he' hexpired
      exact hnone e' (List.mem_append_left _ he') (hexpired.append e)
    have hevict : evict (e.tsSec - windowSec) received (recomputed windowSec received) =
        recomputed windowSec received := by
      cases received with
      | nil => rfl
      | cons front rest =>
        rw [evict, if_neg]
        intro hle
        exact hnone front (by simp) ⟨e, by simp, hle⟩
    rw [run_concat, ih hbefore, update]
    exact (congrArg (fun s => s.add e) hevict).trans (add_recomputed received received e)

theorem exactVolumes_deque (hwindow : 0 < windowSec)
    (hexact : ∀ first rest, first :: rest <:+: received →
      (∀ e ∈ rest, e.tsSec < first.tsSec + windowSec) → ExactVolumes (first :: rest)) :
    ExactVolumes (deque windowSec received) := by
  obtain ⟨out, hsplit, -⟩ := exists_evicted windowSec received
  cases hqueue : deque windowSec received with
  | nil =>
    refine ⟨?_, fun _ => ?_, fun _ => ?_⟩
    all_goals
      intro part hpart
      rw [List.eq_nil_of_infix_nil hpart]
      exact toDouble_intCast (by decide)
  | cons front rest =>
    apply hexact
    · exact (List.IsSuffix.isInfix ⟨out, by rw [← hqueue, ← hsplit]⟩)
    · intro e he
      have := front_inside hwindow received hqueue e (List.mem_cons_of_mem _ he)
      omega

theorem run_eq (hwindow : 0 < windowSec) (hkept : VolumesKept windowSec received) :
    run windowSec received =
      { recomputed windowSec (deque windowSec received) with
        recentLegs := (received.map Entry.leg).rtake RECENT_LEGS_WINDOW } := by
  rcases hkept with hnone | hexact
  · obtain ⟨out, hsplit, hout⟩ := exists_evicted windowSec received
    have hnil : out = [] := by
      apply List.eq_nil_iff_forall_not_mem.mpr
      intro e he
      exact hnone e (hsplit ▸ List.mem_append_left _ he) (hout e he)
    rw [hnil, List.nil_append] at hsplit
    rw [← hsplit]
    exact run_eq_of_none_expired hnone
  · induction received using List.reverseRecOn with
    | nil => rfl
    | append_singleton received e ih =>
      have hbefore : ∀ first rest, first :: rest <:+: received →
          (∀ e ∈ rest, e.tsSec < first.tsSec + windowSec) → ExactVolumes (first :: rest) :=
        fun first rest hin => hexact first rest (hin.trans (List.prefix_append _ _).isInfix)
      rw [run_concat, ih hbefore, deque_concat, ← add_recomputed]
      simp only [update]
      congr 1
      exact evict_recomputed _ (exactVolumes_deque hwindow hbefore) _

theorem mem_inside : e ∈ inside windowSec received ↔
    e ∈ received ∧ ¬ Expired windowSec received e := by
  simp only [inside, List.mem_filter, decide_eq_true_eq, Expired, not_exists, not_and, not_le]
  refine and_congr_right fun he => ?_
  have hne : received.map Entry.tsSec ≠ [] := by
    simpa using List.ne_nil_of_mem he
  obtain ⟨t, ht⟩ := Option.ne_none_iff_exists'.mp (mt List.max?_eq_none_iff.mp hne)
  obtain ⟨hmem, hmax⟩ := List.max?_eq_some_iff.mp ht
  obtain ⟨last, hlast, rfl⟩ := List.mem_map.mp hmem
  have hle (e' : Entry) (he' : e' ∈ received) : e'.tsSec ≤ last.tsSec :=
    hmax _ (List.mem_map_of_mem he')
  simp only [currentTime, ht, Option.mem_some_iff, forall_eq']
  constructor
  · intro hinside e' he'
    have := hle e' he'
    omega
  · intro hinside
    exact ⟨hinside last hlast, hle e he⟩

theorem inside_eq_filter : inside windowSec received =
    received.filter fun e => ¬ Expired windowSec received e := by
  apply List.filter_congr
  intro e he
  rw [Bool.eq_iff_iff, decide_eq_true_iff, decide_eq_true_iff]
  have hiff : e ∈ inside windowSec received ↔ _ := mem_inside
  simpa [inside, he] using hiff

/-- A trade that has left the window did so for one that is in it. -/
theorem Expired.exists_inside (hwindow : 0 < windowSec) (h : Expired windowSec received e) :
    ∃ m ∈ received, ¬ Expired windowSec received m ∧ e.tsSec ≤ m.tsSec - windowSec := by
  obtain ⟨later, hlater, hle⟩ := h
  obtain ⟨m, hm, hmax⟩ := received.toFinset.exists_max_image Entry.tsSec
    ⟨later, List.mem_toFinset.mpr hlater⟩
  have hbound (e' : Entry) (he' : e' ∈ received) : e'.tsSec ≤ m.tsSec :=
    hmax e' (List.mem_toFinset.mpr he')
  refine ⟨m, List.mem_toFinset.mp hm, ?_, ?_⟩
  · rintro ⟨e', he', hle'⟩
    have := hbound e' he'
    omega
  · have := hbound later hlater
    omega

theorem not_expired_of_mem_deque (hwindow : 0 < windowSec)
    (hfirst : ExpiredFirst windowSec received) :
    ∀ e ∈ deque windowSec received, ¬ Expired windowSec received e := by
  obtain ⟨out, hsplit, hout⟩ := exists_evicted windowSec received
  cases hqueue : deque windowSec received with
  | nil => simp
  | cons front rest =>
    have hfront : ¬ Expired windowSec received front := by
      intro hexpired
      obtain ⟨m, hm, hinside, hle⟩ := hexpired.exists_inside hwindow
      rw [hsplit, hqueue] at hm
      rcases List.mem_append.mp hm with hm | hm
      · exact hinside (hout m hm)
      · have := front_inside hwindow received hqueue m hm
        omega
    have hrest : (front :: rest).Pairwise fun a b =>
        Expired windowSec received b → Expired windowSec received a := by
      apply List.Pairwise.sublist _ hfirst
      rw [← hqueue]
      exact List.IsSuffix.sublist ⟨out, hsplit.symm⟩
    intro e he hexpired
    rcases List.mem_cons.mp he with rfl | he
    · exact hfront hexpired
    · exact hfront ((List.pairwise_cons.mp hrest).1 e he hexpired)

theorem deque_eq_inside_iff (hwindow : 0 < windowSec) :
    deque windowSec received = inside windowSec received ↔ ExpiredFirst windowSec received := by
  obtain ⟨out, hsplit, hout⟩ := exists_evicted windowSec received
  constructor
  · intro hdeque
    have hinside : ∀ e ∈ deque windowSec received, ¬ Expired windowSec received e := by
      rw [hdeque]
      exact fun e he => (mem_inside.mp he).2
    have hpairs : (out ++ deque windowSec received).Pairwise fun a b =>
        Expired windowSec received b → Expired windowSec received a := by
      rw [List.pairwise_append]
      refine ⟨?_, ?_, ?_⟩
      · exact List.pairwise_of_forall_mem_list fun a ha _ _ _ => hout a ha
      · exact List.pairwise_of_forall_mem_list fun _ _ b hb hexpired =>
          absurd hexpired (hinside b hb)
      · exact fun a ha _ _ _ => hout a ha
    rwa [← hsplit] at hpairs
  · intro hfirst
    have hinside := not_expired_of_mem_deque hwindow hfirst
    have hnone : out.filter (fun e => ¬ Expired windowSec received e) = [] := by
      rw [List.filter_eq_nil_iff]
      intro e he
      simpa using hout e he
    have hall : (deque windowSec received).filter (fun e => ¬ Expired windowSec received e) =
        deque windowSec received := by
      rw [List.filter_eq_self]
      intro e he
      simpa using hinside e he
    have hsplit' : inside windowSec received =
        (out ++ deque windowSec received).filter fun e => ¬ Expired windowSec received e := by
      rw [← hsplit]
      exact inside_eq_filter
    rw [hsplit', List.filter_append, hnone, hall, List.nil_append]

theorem legs_eq_iff (hfirst : deque windowSec received = inside windowSec received) :
    (received.map Entry.leg).rtake RECENT_LEGS_WINDOW =
      ((inside windowSec received).map Entry.leg).rtake RECENT_LEGS_WINDOW ↔
    LegsKept windowSec received := by
  obtain ⟨out, hsplit, -⟩ := exists_evicted windowSec received
  rw [hfirst] at hsplit
  have hall : (∀ e ∈ received, ¬ Expired windowSec received e) ↔
      inside windowSec received = received := by
    rw [inside_eq_filter, List.filter_eq_self]
    simp
  constructor
  · intro hlegs
    have hlength := congrArg List.length hlegs
    simp only [List.rtake, List.length_drop, List.length_map] at hlength
    by_cases hmany : RECENT_LEGS_WINDOW ≤ (inside windowSec received).length
    · exact .inr hmany
    · have hsum := congrArg List.length hsplit
      rw [List.length_append] at hsum
      have hout : out = [] := List.length_eq_zero_iff.mp (by omega)
      rw [hout, List.nil_append] at hsplit
      exact .inl (hall.mpr hsplit.symm)
  · rintro (hnone | hmany)
    · rw [hall.mp hnone]
    · conv_lhs => rw [hsplit, List.map_append]
      simp only [List.rtake, List.length_append, List.length_map]
      rw [List.drop_append]
      have hout : (out.map Entry.leg).drop
          (out.length + (inside windowSec received).length - RECENT_LEGS_WINDOW) = [] := by
        apply List.drop_eq_nil_of_le
        rw [List.length_map]
        omega
      rw [hout, List.nil_append, List.length_map]
      congr 1
      omega

/-- Multiples of a power of two are added exactly while their sum has 53 bits. -/
theorem exactSums_of_dyadic {l l' : List ℚ} {k : ℤ} (hk : -1074 ≤ k)
    (hwhole : ∀ a ∈ l, ∃ m : ℕ, a = m * 2 ^ k) (hsum : l.sum < 2 ^ (53 + k)) (hsub : l'.Sublist l) :
    ExactSums toDouble l' := by
  have hpos : (0 : ℚ) < 2 ^ k := zpow_pos two_pos k
  have hnonneg (a : ℚ) (ha : a ∈ l) : 0 ≤ a := by
    obtain ⟨m, rfl⟩ := hwhole a ha
    exact mul_nonneg m.cast_nonneg hpos.le
  intro part hpart
  have hin : part.Sublist l := hpart.sublist.trans hsub
  have hmultiple : ∃ m : ℕ, part.sum = m * 2 ^ k := by
    have hall : ∀ a ∈ part, ∃ m : ℕ, a = m * 2 ^ k := fun a ha => hwhole a (hin.subset ha)
    clear hpart hin
    induction part with
    | nil => exact ⟨0, by simp⟩
    | cons a part ih =>
      obtain ⟨m, hm⟩ := hall a (by simp)
      obtain ⟨n, hn⟩ := ih fun a ha => hall a (List.mem_cons_of_mem _ ha)
      refine ⟨m + n, ?_⟩
      rw [List.sum_cons, hm, hn, Nat.cast_add, add_mul]
  obtain ⟨m, hm⟩ := hmultiple
  have hbound : (m : ℚ) * 2 ^ k < 2 ^ 53 * 2 ^ k := by
    calc (m : ℚ) * 2 ^ k = part.sum := hm.symm
      _ ≤ l.sum := hin.sum_le_sum hnonneg
      _ < 2 ^ (53 + k) := hsum
      _ = 2 ^ 53 * 2 ^ k := by rw [zpow_add₀ two_ne_zero]; rfl
  have hsize : (m : ℚ) < 2 ^ 53 := lt_of_mul_lt_mul_right hbound hpos.le
  apply toDouble_eq_self (m := m) (k := k) (by rw [hm, Int.cast_natCast]) _ hk
  rw [Nat.abs_cast]
  exact_mod_cast hsize

theorem volumesKept_of_dyadic {k : ℤ} (hk : -1074 ≤ k)
    (hwhole : ∀ e ∈ received, ∃ m : ℕ, e.amount = m * 2 ^ k)
    (hsum : (received.map Entry.amount).sum < 2 ^ (53 + k)) : VolumesKept windowSec received := by
  have hamounts : ∀ a ∈ received.map Entry.amount, ∃ m : ℕ, a = m * 2 ^ k := by
    intro a ha
    obtain ⟨e, he, rfl⟩ := List.mem_map.mp ha
    exact hwhole e he
  have hall : ExactVolumes received :=
    { all := exactSums_of_dyadic hk hamounts hsum (List.Sublist.refl _)
      cp := fun _ => exactSums_of_dyadic hk hamounts hsum (List.filter_sublist.map _)
      hour := fun _ => exactSums_of_dyadic hk hamounts hsum (List.filter_sublist.map _) }
  exact .inr fun first rest hin _ => hall.of_part hin

section Examples

def tradeWith (tsSec : ℤ) (cp : String) {amount : ℚ} (hpos : 0 < amount)
    (hdouble : toDouble amount = amount) : Entry where
  tsSec := tsSec
  amount := amount
  cp := cp
  hour := tsSec / 3600 % 24
  gave := "XLM"
  got := "USDC"
  selfMatch := false
  digit := some 0
  minuteKey := tsSec / 60
  hourBucket := tsSec / 3600
  amount_pos := hpos
  amount_double := hdouble

theorem toDouble_one : toDouble 1 = 1 := by decide +kernel

def exampleEntry (tsSec : ℤ) : Entry := tradeWith tsSec "c" one_pos toDouble_one

def exampleTrades : List Entry :=
  exampleEntry 0 :: (List.range 20).map fun i => exampleEntry (70 + i)

theorem volumesKept_exampleTrades : VolumesKept 60 exampleTrades := by
  apply volumesKept_of_dyadic (k := 0) (by decide)
  · intro e he
    have hone : e.amount = 1 := by
      simp only [exampleTrades, List.mem_cons, List.mem_map] at he
      rcases he with rfl | ⟨i, -, rfl⟩ <;> rfl
    exact ⟨1, by rw [hone]; simp⟩
  · decide +kernel

theorem tenth_pos : (0 : ℚ) < 3602879701896397 / 2 ^ 55 := by decide +kernel

theorem tenth_double : toDouble (3602879701896397 / 2 ^ 55) = 3602879701896397 / 2 ^ 55 := by
  decide +kernel

/-- Three trades of 0.1 that leave the window of the twenty behind them. -/
def residueTrades : List Entry :=
  (List.range 3).map (fun i => tradeWith i "A" tenth_pos tenth_double) ++
    (List.range 20).map fun i => exampleEntry (100 + i)

-- The sums of 0.1 are rounded up, and the counterparty of the three keeps the difference.
example : ExpiredFirst 60 residueTrades ∧ LegsKept 60 residueTrades ∧
    (run 60 residueTrades).cpVolume.lookup "A" = some (1 / 2 ^ 55) ∧
    (recomputed 60 (inside 60 residueTrades)).cpVolume.lookup "A" = none := by
  decide +kernel

end Examples

end StreamingWindow
