import LedgerLens.LabelledRuns
import LedgerLens.SqlTables
import Mathlib.Algebra.Order.Ring.Rat
import Mathlib.Data.Nat.Cast.Order.Ring
import Mathlib.Logic.Function.Basic

/-!
# The cache of aggregate scores

`api/score_cache.py` over the score table of `detection/storage.py`: any number of requests, each
running `get_or_compute` step by step, while scores are written and disputes remove them. Times are
exact rationals.
-/
namespace ScoreCache

open LabelledRuns SqlTables VersionedHistories

structure RiskScore where
  wallet : String
  assetPair : String
  score : ℤ
  benfordFlag : Bool
  mlFlag : Bool
  confidence : ℤ
  timestamp : String
  deriving DecidableEq

structure ScoreRow where
  id : ℕ
  score : RiskScore
  deriving DecidableEq

abbrev Scores := IdTable ScoreRow ScoreRow.id

def saveScores (t : Scores) (scores : List RiskScore) : Scores :=
  scores.foldl (fun t score => t.insert (fun id => ⟨id, score⟩) fun _ => rfl) t

def deleteScores (t : Scores) (wallet assetPair : String) : Scores :=
  t.delete fun r => r.score.wallet = wallet ∧ r.score.assetPair = assetPair

/-- `COALESCE(MAX(id), 0)`. -/
def scoreGeneration (t : Scores) : ℕ := (t.rows.map ScoreRow.id).foldr max 0

structure Entry (V : Type) where
  value : V
  generation : ℕ
  computedAt : ℚ

structure CacheResult (V : Type) where
  value : V
  hit : Bool
  ageSeconds : ℚ
  deriving DecidableEq

/-- A request with the generation it read. `began` is the number of the table that it was read
from. -/
structure Ticket where
  key : String
  generation : ℕ
  began : ℕ
  beganAt : ℚ

/-- What a request has to do next. -/
inductive Work (V : Type) where
  | idle
  | clock (ticket : Ticket)
  | lookup (ticket : Ticket) (now : ℚ)
  | compute (ticket : Ticket)
  | store (ticket : Ticket) (value : V)

structure Response (V : Type) where
  key : String
  began : ℕ
  ended : ℕ
  beganAt : ℚ
  endedAt : ℚ
  result : CacheResult V
  deriving DecidableEq

/-- `tables` are all the tables there were, the last one being the present one. -/
structure State (V W : Type) where
  scores : Scores
  tables : List Scores
  entries : String → Option (Entry V)
  hand : W → Work V
  now : ℚ
  responses : List (Response V)

inductive Turn (W : Type) where
  | saveScores (scores : List RiskScore)
  | deleteScores (wallet assetPair : String)
  | wait (elapsed : ℚ≥0)
  | clear
  | request (w : W) (key : String)
  | proceed (w : W)

section

variable {V W : Type} [DecidableEq W]

def State.init : State V W := ⟨.empty, [.empty], fun _ => none, fun _ => .idle, 0, []⟩

def State.write (s : State V W) (t : Scores) : State V W :=
  { s with scores := t, tables := s.tables ++ [t] }

def State.present (s : State V W) : ℕ := s.tables.length - 1

def State.take (s : State V W) (w : W) (work : Work V) : State V W :=
  { s with hand := Function.update s.hand w work }

def State.response (s : State V W) (ticket : Ticket) (result : CacheResult V) : Response V where
  key := ticket.key
  began := ticket.began
  ended := s.present
  beganAt := ticket.beganAt
  endedAt := s.now
  result := result

def State.respond (s : State V W) (w : W) (ticket : Ticket) (result : CacheResult V) :
    State V W :=
  { s.take w .idle with responses := s.responses ++ [s.response ticket result] }

/-- One turn. A request reads the generation and then the clock, looks the key up, and where it
finds nothing of that generation computes from the table that there is by then and stores what it
computed. -/
def turn (maxAge : ℚ) (compute : String → Scores → V) (s : State V W) :
    Turn W → Option (State V W)
  | .saveScores scores =>
    if scores = [] then some s else some (s.write (saveScores s.scores scores))
  | .deleteScores wallet assetPair => some (s.write (deleteScores s.scores wallet assetPair))
  | .wait elapsed => some { s with now := s.now + elapsed }
  | .clear => some { s with entries := fun _ => none }
  | .request w key =>
    match s.hand w with
    | .idle => some (s.take w (.clock ⟨key, scoreGeneration s.scores, s.present, s.now⟩))
    | _ => none
  | .proceed w =>
    match s.hand w with
    | .idle => none
    | .clock ticket => some (s.take w (.lookup ticket s.now))
    | .lookup ticket now =>
      match s.entries ticket.key with
      | none => some (s.take w (.compute ticket))
      | some entry =>
        if entry.generation = ticket.generation ∧ now - entry.computedAt ≤ maxAge then
          some (s.respond w ticket ⟨entry.value, true, now - entry.computedAt⟩)
        else some (s.take w (.compute ticket))
    | .compute ticket => some (s.take w (.store ticket (compute ticket.key s.scores)))
    | .store ticket value =>
      some ({ s with
        entries := Function.update s.entries ticket.key (some ⟨value, ticket.generation, s.now⟩)
        }.respond w ticket ⟨value, false, 0⟩)

def Step (maxAge : ℚ) (compute : String → Scores → V) (s : State V W) (e : Turn W)
    (t : State V W) : Prop := turn maxAge compute s e = some t

def Turn.Deletes : Turn W → Prop
  | .deleteScores .. => True
  | _ => False

instance : DecidablePred (Turn.Deletes : Turn W → Prop)
  | .saveScores _ => isFalse id
  | .deleteScores .. => isTrue trivial
  | .wait _ => isFalse id
  | .clear => isFalse id
  | .request .. => isFalse id
  | .proceed _ => isFalse id

theorem le_scoreGeneration {t : Scores} {r : ScoreRow} (h : r ∈ t.rows) :
    r.id ≤ scoreGeneration t := by
  unfold scoreGeneration
  generalize t.rows = rows at h
  induction rows with
  | nil => exact absurd h List.not_mem_nil
  | cons r' rows ih =>
    rw [List.map_cons, List.foldr_cons]
    rcases List.mem_cons.mp h with rfl | h
    · exact le_max_left _ _
    · exact (ih h).trans (le_max_right _ _)

theorem scoreGeneration_le (t : Scores) : scoreGeneration t ≤ t.sequence := by
  have hbounded := t.bounded
  unfold scoreGeneration
  generalize t.rows = rows at hbounded
  induction rows with
  | nil => exact Nat.zero_le _
  | cons r rows ih =>
    rw [List.map_cons, List.foldr_cons]
    exact max_le (hbounded r List.mem_cons_self)
      (ih fun r' hr' => hbounded r' (List.mem_cons_of_mem r hr'))

theorem saveScores_mono (scores : List RiskScore) (t : Scores) :
    (∀ r ∈ t.rows, r ∈ (saveScores t scores).rows) ∧
        t.sequence ≤ (saveScores t scores).sequence := by
  induction scores generalizing t with
  | nil => exact ⟨fun _ hr => hr, le_rfl⟩
  | cons score scores ih =>
    obtain ⟨hrows, hsequence⟩ := ih (t.insert (fun id => ⟨id, score⟩) fun _ => rfl)
    exact ⟨fun r hr => hrows r (IdTable.mem_insert.mpr (.inl hr)),
      (Nat.le_succ t.sequence).trans hsequence⟩

theorem scoreGeneration_lt_saveScores {scores : List RiskScore} (h : scores ≠ []) (t : Scores) :
    scoreGeneration t < scoreGeneration (saveScores t scores) := by
  cases scores with
  | nil => exact absurd rfl h
  | cons score scores =>
    have hnew := (saveScores_mono scores (t.insert (fun id => ⟨id, score⟩) fun _ => rfl)).1
      ⟨t.sequence + 1, score⟩ (IdTable.mem_insert.mpr (.inr rfl))
    exact (Nat.lt_succ_of_le (scoreGeneration_le t)).trans_le (le_scoreGeneration hnew)

variable {maxAge : ℚ} {compute : String → Scores → V} {s t : State V W} {e : Turn W}

def Token (tables : List Scores) (began generation : ℕ) : Prop :=
  ∃ d, tables[began]? = some d ∧ scoreGeneration d = generation

theorem Token.append {tables : List Scores} {began generation : ℕ}
    (h : Token tables began generation) (new : List Scores) :
    Token (tables ++ new) began generation := by
  obtain ⟨d, hd, hgeneration⟩ := h
  exact ⟨d, getElem?_append_of_some hd new, hgeneration⟩

/-- An entry was computed from a table that was there when its generation was read, or from a later
one. -/
def Entry.Fits (compute : String → Scores → V) (tables : List Scores) (now : ℚ) (key : String)
    (entry : Entry V) : Prop :=
  entry.computedAt ≤ now ∧ ∃ began, Token tables began entry.generation ∧
    Between tables (compute key) began (tables.length - 1) entry.value

def Ticket.Fits (tables : List Scores) (now : ℚ) (ticket : Ticket) : Prop :=
  Token tables ticket.began ticket.generation ∧ ticket.beganAt ≤ now

def Work.Fits (compute : String → Scores → V) (tables : List Scores) (now : ℚ) : Work V → Prop
  | .idle => True
  | .clock ticket => ticket.Fits tables now
  | .lookup ticket read => ticket.Fits tables now ∧ ticket.beganAt ≤ read ∧ read ≤ now
  | .compute ticket => ticket.Fits tables now
  | .store ticket value => ticket.Fits tables now ∧
    Between tables (compute ticket.key) ticket.began (tables.length - 1) value

/-- A response is a value of a table that was there between its request and itself. The age of what
comes out of the cache is no more than it may be, and short of nothing by no more than the request
took: another may store the entry after the clock was read. -/
def Response.Fits (maxAge : ℚ) (compute : String → Scores → V) (tables : List Scores)
    (r : Response V) : Prop :=
  Between tables (compute r.key) r.began r.ended r.result.value ∧
    (r.result.hit = true →
      r.beganAt - r.endedAt ≤ r.result.ageSeconds ∧ r.result.ageSeconds ≤ maxAge)

structure Fits (maxAge : ℚ) (compute : String → Scores → V) (s : State V W) : Prop where
  present : s.tables[s.present]? = some s.scores
  versions : (s.tables.map scoreGeneration).Nodup
  latest : ∀ d ∈ s.tables, scoreGeneration d ≤ scoreGeneration s.scores
  entries : ∀ key entry, s.entries key = some entry → entry.Fits compute s.tables s.now key
  hand : ∀ w, (s.hand w).Fits compute s.tables s.now
  responses : ∀ r ∈ s.responses, r.Fits maxAge compute s.tables

omit [DecidableEq W] in
theorem Fits.start : Fits maxAge compute (State.init : State V W) where
  present := rfl
  versions := List.nodup_singleton _
  latest d hd := by rw [List.mem_singleton.mp hd]; exact le_rfl
  entries := nofun
  hand _ := trivial
  responses := nofun

omit [DecidableEq W] in
theorem present_write (h : s.tables[s.present]? = some s.scores) (new : Scores) :
    (s.write new).present = s.present + 1 := by
  obtain ⟨hlt, -⟩ := List.getElem?_eq_some_iff.mp h
  unfold State.present State.write at *
  rw [List.length_append, List.length_singleton]
  omega

theorem Ticket.Fits.mono {tables : List Scores} {now later : ℚ} {ticket : Ticket}
    (h : ticket.Fits tables now) (new : List Scores) (hlater : now ≤ later) :
    ticket.Fits (tables ++ new) later :=
  ⟨h.1.append new, h.2.trans hlater⟩

theorem Work.Fits.mono {work : Work V} {tables : List Scores} {now later : ℚ}
    (h : work.Fits compute tables now) (new : List Scores) (hlater : now ≤ later) :
    work.Fits compute (tables ++ new) later := by
  cases work with
  | idle => trivial
  | clock ticket => exact Ticket.Fits.mono h new hlater
  | lookup ticket read => exact ⟨h.1.mono new hlater, h.2.1, h.2.2.trans hlater⟩
  | compute ticket => exact Ticket.Fits.mono h new hlater
  | store ticket value =>
    refine ⟨h.1.mono new hlater, (h.2.append new).widen le_rfl ?_⟩
    exact Nat.sub_le_sub_right (List.length_append ▸ Nat.le_add_right _ _) 1

omit [DecidableEq W] in
/-- A table of a generation of its own comes up. -/
theorem Fits.write (h : Fits maxAge compute s) {new : Scores}
    (hnew : scoreGeneration s.scores < scoreGeneration new) :
    Fits maxAge compute (s.write new) where
  present := by
    obtain ⟨hlt, -⟩ := List.getElem?_eq_some_iff.mp h.present
    rw [present_write h.present, State.write, List.getElem?_append_right (by
      unfold State.present at *
      omega)]
    have hindex : s.present + 1 - s.tables.length = 0 := by
      unfold State.present at *
      omega
    rw [hindex]
    rfl
  versions := nodup_concat h.versions fun d hd => ((h.latest d hd).trans_lt hnew).ne
  latest d hd := by
    rcases List.mem_append.mp hd with hd | hd
    · exact ((h.latest d hd).trans_lt hnew).le
    · rw [List.mem_singleton.mp hd]
      exact le_rfl
  entries key entry hentry := by
    obtain ⟨htime, began, htoken, hbetween⟩ := h.entries key entry hentry
    refine ⟨htime, began, htoken.append [new], (hbetween.append [new]).widen le_rfl ?_⟩
    exact Nat.sub_le_sub_right (List.length_append ▸ Nat.le_add_right _ _) 1
  hand w := (h.hand w).mono [new] le_rfl
  responses r hr := ⟨(h.responses r hr).1.append [new], (h.responses r hr).2⟩

theorem Fits.take (h : Fits maxAge compute s) (w : W) {work : Work V}
    (hwork : work.Fits compute s.tables s.now) :
    Fits maxAge compute (s.take w work) where
  present := h.present
  versions := h.versions
  latest := h.latest
  entries := h.entries
  hand v := by
    unfold State.take
    dsimp only
    by_cases hv : v = w
    · subst hv
      rw [Function.update_self]
      exact hwork
    · rw [Function.update_of_ne hv]
      exact h.hand v
  responses := h.responses

theorem Fits.respond (h : Fits maxAge compute s) (w : W) {ticket : Ticket} {result : CacheResult V}
    (hresult : (s.response ticket result).Fits maxAge compute s.tables) :
    Fits maxAge compute (s.respond w ticket result) := by
  have htake : Fits maxAge compute (s.take w .idle) := h.take w trivial
  exact ⟨htake.present, htake.versions, htake.latest, htake.entries, htake.hand, by
    intro r hr
    rcases List.mem_append.mp hr with hr | hr
    · exact h.responses r hr
    · rw [List.mem_singleton.mp hr]
      exact hresult⟩

omit [DecidableEq W] in
theorem Fits.hit (h : Fits maxAge compute s) {ticket : Ticket} {now : ℚ} {entry : Entry V}
    (hticket : ticket.Fits s.tables s.now) (hbegan : ticket.beganAt ≤ now)
    (hentry : s.entries ticket.key = some entry)
    (hgeneration : entry.generation = ticket.generation)
    (hage : now - entry.computedAt ≤ maxAge) :
    (s.response ticket ⟨entry.value, true, now - entry.computedAt⟩).Fits maxAge compute
      s.tables := by
  obtain ⟨htime, began, ⟨d', hd', hversion'⟩, hbetween⟩ := h.entries ticket.key entry hentry
  obtain ⟨⟨d, hd, hversion⟩, -⟩ := hticket
  have hsame : scoreGeneration d' = scoreGeneration d := by
    rw [hversion', hgeneration, hversion]
  obtain rfl := index_eq_of_version_eq h.versions hd' hd hsame
  exact ⟨hbetween, fun _ => ⟨sub_le_sub hbegan htime, hage⟩⟩

omit [DecidableEq W] in
theorem Fits.computed (h : Fits maxAge compute s) {ticket : Ticket}
    (hticket : ticket.Fits s.tables s.now) :
    (Work.store ticket (compute ticket.key s.scores)).Fits compute s.tables s.now := by
  obtain ⟨d, hd, -⟩ := hticket.1
  obtain ⟨hlt, -⟩ := List.getElem?_eq_some_iff.mp hd
  have hbegan : ticket.began ≤ s.present := by
    unfold State.present
    omega
  exact ⟨hticket, s.present, s.scores, hbegan, le_rfl, h.present, rfl⟩

omit [DecidableEq W] in
theorem Fits.store (h : Fits maxAge compute s) {ticket : Ticket} {value : V}
    (hwork : (Work.store ticket value).Fits compute s.tables s.now) :
    Fits maxAge compute { s with
      entries := Function.update s.entries ticket.key
        (some ⟨value, ticket.generation, s.now⟩) } where
  present := h.present
  versions := h.versions
  latest := h.latest
  entries key entry hentry := by
    obtain ⟨⟨htoken, -⟩, hbetween⟩ := hwork
    dsimp only at hentry
    by_cases hkey : key = ticket.key
    · subst hkey
      rw [Function.update_self] at hentry
      cases hentry
      exact ⟨le_rfl, ticket.began, htoken, hbetween⟩
    · rw [Function.update_of_ne hkey] at hentry
      exact h.entries key entry hentry
  hand := h.hand
  responses := h.responses

theorem Fits.proceed (h : Fits maxAge compute s) {w : W}
    (hstep : Step maxAge compute s (.proceed w) t) : Fits maxAge compute t := by
  unfold Step turn at hstep
  have hwork := h.hand w
  dsimp only at hstep
  split at hstep
  · cases hstep
  · rename_i ticket hhand
    rw [hhand] at hwork
    cases hstep
    exact h.take w ⟨hwork, hwork.2, le_rfl⟩
  · rename_i ticket now hhand
    rw [hhand] at hwork
    split at hstep
    · cases hstep
      exact h.take w hwork.1
    · rename_i entry hentry
      split_ifs at hstep with hhit
      · cases hstep
        exact h.respond w (h.hit hwork.1 hwork.2.1 hentry hhit.1 hhit.2)
      · cases hstep
        exact h.take w hwork.1
  · rename_i ticket hhand
    rw [hhand] at hwork
    cases hstep
    exact h.take w (h.computed hwork)
  · rename_i ticket value hhand
    rw [hhand] at hwork
    cases hstep
    exact (h.store hwork).respond w ⟨hwork.2, nofun⟩

theorem Fits.step (h : Fits maxAge compute s) (hstep : Step maxAge compute s e t)
    (hkeep : ¬ e.Deletes) : Fits maxAge compute t := by
  cases e with
  | saveScores scores =>
    unfold Step turn at hstep
    dsimp only at hstep
    split_ifs at hstep with hempty
    · cases hstep
      exact h
    · cases hstep
      exact h.write (scoreGeneration_lt_saveScores hempty s.scores)
  | deleteScores => exact absurd trivial hkeep
  | wait elapsed =>
    cases hstep
    have hlater : s.now ≤ s.now + elapsed := le_add_of_nonneg_right elapsed.2
    exact {
      present := h.present
      versions := h.versions
      latest := h.latest
      entries := fun key entry hentry =>
        ⟨(h.entries key entry hentry).1.trans hlater, (h.entries key entry hentry).2⟩
      hand := fun w => List.append_nil s.tables ▸ (h.hand w).mono [] hlater
      responses := h.responses }
  | clear =>
    cases hstep
    exact {
      present := h.present
      versions := h.versions
      latest := h.latest
      entries := nofun
      hand := h.hand
      responses := h.responses }
  | request w key =>
    unfold Step turn at hstep
    dsimp only at hstep
    split at hstep
    · cases hstep
      exact h.take w ⟨⟨s.scores, h.present, rfl⟩, le_rfl⟩
    · cases hstep
  | proceed w => exact h.proceed hstep

end

/-- Where no scores are removed, every response, out of the cache or not, is the value of a table
that was there between its request and itself, however requests and writes interleave. -/
theorem responses_current {V W : Type} [DecidableEq W] {maxAge : ℚ} {compute : String → Scores → V}
    {s : State V W} {turns : List (Turn W)} (hrun : Run (Step maxAge compute) .init turns s)
    (hkeep : ∀ e ∈ turns, ¬ e.Deletes) {r : Response V} (hr : r ∈ s.responses) :
    Between s.tables (compute r.key) r.began r.ended r.result.value ∧
      (r.result.hit = true →
        r.beganAt - r.endedAt ≤ r.result.ageSeconds ∧ r.result.ageSeconds ≤ maxAge) := by
  have hfits : Fits maxAge compute s := by
    clear hr
    induction hrun with
    | refl => exact .start
    | tail _ hstep ih =>
      exact (ih fun e he => hkeep e (List.mem_append_left _ he)).step hstep
        (hkeep _ (List.mem_append_right _ (List.mem_singleton_self _)))
  exact hfits.responses r hr

theorem seconds_nonneg (n : ℕ) : (0 : ℚ) ≤ n := Nat.cast_nonneg n

def seconds (n : ℕ) : ℚ≥0 := ⟨n, seconds_nonneg n⟩

/-- A request reads the clock, and after a pause it finds what another has stored by then. A score
is saved, the first computes again, and the other finds that half a minute later. -/
def exampleTurns : List (Turn Bool) :=
  [.request true "k", .proceed true, .wait (seconds 5), .request false "k", .proceed false,
    .proceed false, .proceed false, .proceed false, .proceed true,
    .saveScores [⟨"w", "XLM/USDC", 80, true, false, 90, "2026-01-01"⟩],
    .request true "k", .proceed true, .proceed true, .proceed true, .proceed true,
    .wait (seconds 30), .request false "k", .proceed false, .proceed false]

def rowCount (_ : String) (t : Scores) : ℕ := t.rows.length

def exampleEnd : State ℕ Bool :=
  (exampleTurns.foldlM (turn 60 rowCount) .init).getD .init

theorem run_exampleTurns : Run (Step 60 rowCount) .init exampleTurns exampleEnd := by
  apply run_of_foldlM
  have hsome : (exampleTurns.foldlM (turn 60 rowCount) .init).isSome = true := by decide +kernel
  obtain ⟨s, hs⟩ := Option.isSome_iff_exists.mp hsome
  rw [exampleEnd, hs, Option.getD_some]

theorem responses_current_responded :
    (Between exampleEnd.tables (rowCount "k") 0 0 0 ∧
      (true = true → (0 : ℚ) - 5 ≤ -5 ∧ (-5 : ℚ) ≤ 60)) ∧
    Between exampleEnd.tables (rowCount "k") 1 1 1 ∧
      (true = true → (35 : ℚ) - 35 ≤ 30 ∧ (30 : ℚ) ≤ 60) :=
  ⟨responses_current run_exampleTurns (by decide) (r := ⟨"k", 0, 0, 0, 5, ⟨0, true, -5⟩⟩)
      (by decide +kernel),
    responses_current run_exampleTurns (by decide) (r := ⟨"k", 1, 1, 35, 35, ⟨1, true, 30⟩⟩)
      (by decide +kernel)⟩

end ScoreCache
