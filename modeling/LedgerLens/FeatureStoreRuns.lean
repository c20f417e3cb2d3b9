import LedgerLens.FeatureStore
import LedgerLens.JsonParsing
import LedgerLens.Sha256
import LedgerLens.TextBytes

/-!
# Calls to the feature store

Any calls of `get_state`, `set_state` and `delete_state` of `detection/feature_store.py` one after
another, each at a time at which Redis is reachable or not.
-/
namespace FeatureStoreRuns

open CircuitBreaker Dictionaries FallbackCopies FeatureStore LabelledRuns

section Runs

variable {ρ : Type} (codec : Codec ρ) (sha256 : String → String) (cfg : Config)

def run (calls : List (Call ρ)) : Store ρ := calls.foldl (Store.next codec sha256 cfg) (.init ρ)

/-- The last state set under the key and not deleted since. -/
def lastSet (key : String) (calls : List (Call ρ)) : Option (WalletFeatureState ρ) :=
  calls.foldl
    (fun latest c => if c.request.key sha256 = key then after latest c.request.op else latest) none

def written (key : String) (calls : List (Call ρ)) : Set (WalletFeatureState ρ) :=
  {state | ∃ c ∈ calls, c.request = .setState state ∧ state.key sha256 = key}

/-- Time does not run back, later states of a key have later updates, and nothing is evicted. -/
structure InOrder (calls : List (Call ρ)) : Prop where
  times : calls.Pairwise fun c c' => c.now ≤ c'.now
  updates : calls.Pairwise fun c c' => ∀ state state', c.request = .setState state →
    c'.request = .setState state' → state.key sha256 = state'.key sha256 →
      state.lastUpdated < state'.lastUpdated
  room : Along (Store.next codec sha256 cfg) (fun s c => ¬ s.Evicts sha256 cfg c) (.init ρ) calls

/-- A deletion that Redis serves finds no entry in the process, and another one none in Redis. -/
def CleanCall (s : Store ρ) (c : Call ρ) : Prop :=
  ∀ wallet assetPair, c.request = .deleteState wallet assetPair →
    if s.served cfg c then s.fallbackDict.get? (hashKey sha256 wallet assetPair) = none
    else s.redis.get? (hashKey sha256 wallet assetPair) = none

def ReadsLastSet (calls : List (Call ρ)) : Prop :=
  ∀ wallet assetPair now reachable, (∀ c ∈ calls, c.now ≤ now) →
    let s := run codec sha256 cfg calls
    let answer := (s.getState codec sha256 cfg wallet assetPair now reachable).2
    answer = none ∨ answer = lastSet sha256 (hashKey sha256 wallet assetPair) calls

structure Kept (calls : List (Call ρ)) (s : Store ρ) : Prop where
  sound : s.Sound codec sha256 cfg
  coherent : ∀ key,
    Coherent rank (written sha256 key calls) (lastSet sha256 key calls) (s.copiesAt codec key)

variable {codec sha256 cfg}

theorem run_append (calls : List (Call ρ)) (c : Call ρ) :
    run codec sha256 cfg (calls ++ [c]) = (run codec sha256 cfg calls).next codec sha256 cfg c :=
  List.foldl_append

theorem lastSet_append (key : String) (calls : List (Call ρ)) (c : Call ρ) :
    lastSet sha256 key (calls ++ [c]) =
      if c.request.key sha256 = key then after (lastSet sha256 key calls) c.request.op
      else lastSet sha256 key calls :=
  List.foldl_append

theorem written_mono (key : String) (calls : List (Call ρ)) (c : Call ρ) :
    written sha256 key calls ⊆ written sha256 key (calls ++ [c]) := by
  rintro state ⟨c', hc', hstate⟩
  exact ⟨c', List.mem_append_left [c] hc', hstate⟩

theorem written_of_lastSet {key : String} {calls : List (Call ρ)} {state : WalletFeatureState ρ}
    (h : lastSet sha256 key calls = some state) : state ∈ written sha256 key calls := by
  induction calls using List.reverseRecOn with
  | nil => cases h
  | append_singleton calls c ih =>
    rw [lastSet_append] at h
    split_ifs at h with hkey
    · cases hrequest : c.request with
      | setState st =>
        rw [hrequest] at h hkey
        obtain rfl : st = state := Option.some.inj h
        exact ⟨c, by simp, hrequest, hkey⟩
      | getState =>
        rw [hrequest] at h
        exact written_mono key calls c (ih h)
      | deleteState =>
        rw [hrequest] at h
        cases h
    · exact written_mono key calls c (ih h)

theorem Kept.init : Kept codec sha256 cfg [] (.init ρ) where
  sound :=
    { dumped := fun _ _ h => by cases h
      connected := fun _ => rfl
      keyed := fun _ _ h => by cases h
      opened := fun h => by cases h }
  coherent _ :=
    { primary_written := fun _ h => by cases h
      fallback_latest := fun _ h => by cases h
      fallback_newer := fun _ _ h => by cases h
      primary_latest := fun _ => rfl }

theorem primary_eq_none {s : Store ρ} (hsound : s.Sound codec sha256 cfg) {key : String} :
    (s.copiesAt codec key).primary = none ↔ s.redis.get? key = none := by
  rw [Store.copiesAt]
  cases h : s.redis.get? key with
  | none => simp
  | some data =>
    obtain ⟨state, rfl⟩ := hsound.dumped key data h
    simp [codec.validate_dump]

theorem clean_iff {s : Store ρ} (hsound : s.Sound codec sha256 cfg) {c : Call ρ} :
    Clean (s.served cfg c) (s.copiesAt codec (c.request.key sha256)) c.request.op ↔
      CleanCall sha256 cfg s c := by
  rw [Clean, CleanCall, primary_eq_none hsound]
  cases c.request with
  | setState => simp [Request.op]
  | getState => simp [Request.op]
  | deleteState wallet assetPair =>
    constructor
    · rintro h _ _ heq
      cases heq
      exact h rfl
    · exact fun h _ => h wallet assetPair rfl

/-- A clean call keeps the copies coherent. -/
theorem Kept.next {calls : List (Call ρ)} {s : Store ρ} (h : Kept codec sha256 cfg calls s)
    {c : Call ρ} (hroom : ¬ s.Evicts sha256 cfg c)
    (hupdates : ∀ state, c.request = .setState state →
      ∀ old ∈ written sha256 (state.key sha256) calls, old.lastUpdated < state.lastUpdated)
    (hclean : CleanCall sha256 cfg s c) :
    Kept codec sha256 cfg (calls ++ [c]) (s.next codec sha256 cfg c) := by
  refine ⟨h.sound.next hroom, fun key => ?_⟩
  rw [copiesAt_next h.sound hroom, lastSet_append]
  by_cases hkey : key = c.request.key sha256
  · subst hkey
    rw [if_pos rfl, if_pos rfl]
    have hcoherent := h.coherent (c.request.key sha256)
    have hcleanCopies := (clean_iff h.sound).mpr hclean
    cases hrequest : c.request with
    | setState state =>
      rw [hrequest] at hcoherent
      have hset := hcoherent.set (hupdates state hrequest) (s.served cfg c)
      refine hset.mono (Set.insert_subset ⟨c, by simp, hrequest, rfl⟩ (written_mono _ calls c))
    | getState wallet assetPair =>
      rw [hrequest] at hcoherent
      have hget := hcoherent.get (s.served cfg c) fun _ => written_of_lastSet
      exact hget.mono (written_mono _ calls c)
    | deleteState wallet assetPair =>
      rw [hrequest] at hcleanCopies
      exact coherent_delete hcleanCopies
  · rw [if_neg hkey, if_neg (Ne.symm hkey)]
    exact (h.coherent key).mono (written_mono key calls c)

theorem InOrder.left {calls calls' : List (Call ρ)}
    (h : InOrder codec sha256 cfg (calls ++ calls')) : InOrder codec sha256 cfg calls where
  times := (List.pairwise_append.mp h.times).1
  updates := (List.pairwise_append.mp h.updates).1
  room := (along_append_iff.mp h.room).1

theorem InOrder.room_last {calls : List (Call ρ)} {c : Call ρ}
    (h : InOrder codec sha256 cfg (calls ++ [c])) :
    ¬ (run codec sha256 cfg calls).Evicts sha256 cfg c :=
  (along_append_iff.mp h.room).2.1

theorem InOrder.updates_last {calls : List (Call ρ)} {c : Call ρ}
    (h : InOrder codec sha256 cfg (calls ++ [c])) (state : WalletFeatureState ρ)
    (hstate : c.request = .setState state) :
    ∀ old ∈ written sha256 (state.key sha256) calls, old.lastUpdated < state.lastUpdated := by
  rintro old ⟨c', hc', hold, hkey⟩
  exact (List.pairwise_append.mp h.updates).2.2 c' hc' c (by simp) old state hold hstate hkey

theorem kept_run {calls : List (Call ρ)} (horder : InOrder codec sha256 cfg calls)
    (hclean : Along (Store.next codec sha256 cfg) (CleanCall sha256 cfg) (.init ρ) calls) :
    Kept codec sha256 cfg calls (run codec sha256 cfg calls) := by
  induction calls using List.reverseRecOn with
  | nil => exact Kept.init
  | append_singleton calls c ih =>
    obtain ⟨hbefore, hlast, -⟩ := along_append_iff.mp hclean
    rw [run_append]
    exact (ih horder.left hbefore).next horder.room_last horder.updates_last hlast

theorem Kept.readsLastSet {calls : List (Call ρ)}
    (h : Kept codec sha256 cfg calls (run codec sha256 cfg calls)) :
    ReadsLastSet codec sha256 cfg calls := by
  intro wallet assetPair now reachable _ s answer
  rw [show answer = _ from read_getState h.sound wallet assetPair now reachable]
  exact (h.coherent _).read _

theorem exists_available (husing : cfg.usingRedis = true) {s : Store ρ} (htimed : Timed s.circuit)
    (earliest : ℚ) : ∃ now, earliest ≤ now ∧ (s.redisAvailable cfg now).2 = true := by
  by_cases hopened : s.circuit.state = .opened
  · obtain ⟨openedAt, hopenedAt⟩ := Option.ne_none_iff_exists'.mp (htimed hopened)
    refine ⟨max earliest (openedAt + cfg.circuit.recoveryTimeout), le_max_left _ _, ?_⟩
    have hwaited : cfg.circuit.recoveryTimeout ≤
        max earliest (openedAt + cfg.circuit.recoveryTimeout) - openedAt :=
      le_sub_iff_add_le'.mpr (le_max_right _ _)
    rw [Store.redisAvailable, if_pos husing, Breaker.allowRequest,
      Breaker.maybeTransitionToHalfOpen, if_pos ⟨hopened, openedAt, hopenedAt, hwaited⟩]
    rfl
  · refine ⟨earliest, le_rfl, ?_⟩
    rw [Store.redisAvailable, if_pos husing, Breaker.allowRequest,
      Breaker.maybeTransitionToHalfOpen, if_neg fun h => hopened h.1]
    exact decide_eq_true hopened

theorem exists_other_served {s : Store ρ} {c : Call ρ} (hsound : s.Sound codec sha256 cfg)
    (hnot : ¬ CleanCall sha256 cfg s c) :
    ∃ now reachable, c.now ≤ now ∧
      (((s.next codec sha256 cfg c).redisAvailable cfg now).2 && reachable) = !s.served cfg c := by
  cases hserved : s.served cfg c with
  | true => exact ⟨c.now, false, le_rfl, Bool.and_false _⟩
  | false =>
    have husing : cfg.usingRedis = true := by
      by_contra hoff
      refine hnot fun wallet' assetPair' _ => ?_
      rw [hserved, if_neg Bool.false_ne_true, hsound.connected (Bool.not_eq_true _ ▸ hoff)]
      rfl
    have htimed : Timed (s.next codec sha256 cfg c).circuit := timed_next hsound c
    obtain ⟨now, hnow, havailable⟩ := exists_available husing htimed c.now
    exact ⟨now, true, hnow, by rw [havailable]; rfl⟩

/-- After a deletion that is not clean some reader is given what was deleted. -/
theorem not_readsLastSet {calls : List (Call ρ)} {c : Call ρ}
    (horder : InOrder codec sha256 cfg (calls ++ [c]))
    (hsound : (run codec sha256 cfg calls).Sound codec sha256 cfg)
    (hnot : ¬ CleanCall sha256 cfg (run codec sha256 cfg calls) c) :
    ¬ ReadsLastSet codec sha256 cfg (calls ++ [c]) := by
  have hcopies := mt (clean_iff hsound).mp hnot
  cases hrequest : c.request with
  | setState => exact absurd (fun _ _ h => by rw [hrequest] at h; cases h) hnot
  | getState => exact absurd (fun _ _ h => by rw [hrequest] at h; cases h) hnot
  | deleteState wallet assetPair =>
    obtain ⟨now, reachable, hnow, hserved⟩ := exists_other_served hsound hnot
    have hlatest : lastSet sha256 (hashKey sha256 wallet assetPair) (calls ++ [c]) = none := by
      rw [lastSet_append, hrequest]
      exact if_pos rfl
    have hread : ((run codec sha256 cfg (calls ++ [c])).getState codec sha256 cfg wallet assetPair
        now reachable).2 ≠ none := by
      rw [run_append, read_getState (hsound.next horder.room_last), hserved,
        copiesAt_next hsound horder.room_last, hrequest]
      rw [hrequest] at hcopies
      rw [if_pos (show hashKey sha256 wallet assetPair =
        (Request.deleteState wallet assetPair : Request ρ).key sha256 from rfl)]
      exact exists_read_of_not_clean hcopies
    intro hreads
    have hlate : ∀ c' ∈ calls ++ [c], c'.now ≤ now := by
      intro c' hc'
      rcases List.mem_append.mp hc' with hc' | hc'
      · exact ((List.pairwise_append.mp horder.times).2.2 c' hc' c (by simp)).trans hnow
      · rw [List.mem_singleton.mp hc']
        exact hnow
    rcases hreads wallet assetPair now reachable hlate with h | h
    · exact hread h
    · exact hread (h.trans hlatest)

section Results

variable (codec sha256 cfg)

/-- At no point of a run is a reader given a deleted or replaced state exactly when every deletion
of the run finds nothing in the copy that it leaves alone. -/
theorem never_resurrects_iff (calls : List (Call ρ)) (horder : InOrder codec sha256 cfg calls) :
    (∀ before, before <+: calls → ReadsLastSet codec sha256 cfg before) ↔
      Along (Store.next codec sha256 cfg) (CleanCall sha256 cfg) (.init ρ) calls := by
  constructor
  · intro hreads
    induction calls using List.reverseRecOn with
    | nil => trivial
    | append_singleton calls c ih =>
      have hclean := ih horder.left fun before hbefore =>
        hreads before (hbefore.trans (List.prefix_append calls [c]))
      refine along_append_iff.mpr ⟨hclean, ?_, trivial⟩
      by_contra hnot
      exact not_readsLastSet horder (kept_run horder.left hclean).sound hnot
        (hreads (calls ++ [c]) List.prefix_rfl)
  · rintro hclean before ⟨later, rfl⟩
    exact (kept_run horder.left (along_append_iff.mp hclean).1).readsLastSet

end Results

end Runs

section Examples

open JsonText Sha256 TextBytes

def hexSha256 (text : String) : String := hexdigest (Sha256.sha256 (utf8 text))

def jsonOf (state : WalletFeatureState Unit) : Json :=
  .object (.ofList [("wallet", .string state.wallet), ("asset_pair", .string state.assetPair),
    ("last_updated", .string (toString state.lastUpdated))])

def ofJson : Json → Option (WalletFeatureState Unit)
  | .object members =>
    match members.toList with
    | [("wallet", .string wallet), ("asset_pair", .string assetPair),
        ("last_updated", .string lastUpdated)] =>
      some ⟨wallet, assetPair, Nat.ofDigitChars 10 lastUpdated.toList 0, ()⟩
    | _ => none
  | _ => none

/-- States of nothing but what the store looks at, as JSON. -/
def jsonCodec : Codec Unit where
  modelDumpJson state := .ofList ((jsonOf state).render .compact)
  modelValidateJson text := (loads text).bind ofJson
  validate_dump state := by
    rw [loads_render Separators.blank_compact, Option.bind_some, jsonOf, ofJson,
      Members.toList_ofList]
    simp [Nat.ofDigitChars_ten_toDigits]
  dump_ne_empty state := by
    intro hempty
    have hlist := congrArg String.toList hempty
    simp [jsonOf, Members.ofList, Json.render] at hlist

def sampleState : WalletFeatureState Unit := ⟨"GWALLET", "XLM/USDC", 1, ()⟩

/-- Redis keeps the state that is deleted while it is unreachable. -/
def outageCalls : List (Call Unit) :=
  [⟨.setState sampleState, 0, true⟩, ⟨.deleteState "GWALLET" "XLM/USDC", 1, false⟩]

theorem outage_resurrects :
    InOrder jsonCodec hexSha256 {} outageCalls ∧
      ¬ ∀ before, before <+: outageCalls → ReadsLastSet jsonCodec hexSha256 {} before := by
  refine ⟨⟨by decide, ?_, ?_, ?_, trivial⟩, fun hreads => ?_⟩
  · rw [outageCalls, List.pairwise_pair]
    intro _ _ _ hdelete
    cases hdelete
  · rintro ⟨state, -, hserved, -⟩
    cases hserved
  · rintro ⟨state, hdelete, -⟩
    cases hdelete
  · have hread : ((run jsonCodec hexSha256 {} outageCalls).getState jsonCodec hexSha256 {} "GWALLET"
        "XLM/USDC" 2 true).2 = some sampleState := by decide +kernel
    have hdeleted : lastSet hexSha256 (hashKey hexSha256 "GWALLET" "XLM/USDC") outageCalls = none :=
      by decide +kernel
    rcases hreads outageCalls List.prefix_rfl "GWALLET" "XLM/USDC" 2 true (by decide) with h | h
    · rw [hread] at h
      cases h
    · rw [hread, hdeleted] at h
      cases h

instance (s : Store Unit) (c : Call Unit) : Decidable (s.Evicts hexSha256 {} c) :=
  match h : c.request with
  | .setState state =>
    decidable_of_iff (s.served {} c = false ∧ state.key hexSha256 ∉ s.fallbackDict.keys ∧
      Config.maxFallbackEntries {} ≤ s.fallbackDict.entries.length) (by simp [Store.Evicts, h])
  | .getState _ _ | .deleteState _ _ => isFalse (by simp [Store.Evicts, h])

instance (s : Store Unit) (c : Call Unit) : Decidable (CleanCall hexSha256 {} s c) :=
  match h : c.request with
  | .deleteState wallet assetPair =>
    decidable_of_iff (if s.served {} c then
        s.fallbackDict.get? (hashKey hexSha256 wallet assetPair) = none
      else s.redis.get? (hashKey hexSha256 wallet assetPair) = none) (by simp [CleanCall, h])
  | .getState _ _ | .setState _ => isTrue (by simp [CleanCall, h])

/-- The state set while Redis is unreachable is handed on to it by a reader, and then deleted. -/
def healedCalls : List (Call Unit) :=
  [⟨.setState sampleState, 0, true⟩, ⟨.setState { sampleState with lastUpdated := 2 }, 1, false⟩,
    ⟨.getState "GWALLET" "XLM/USDC", 2, true⟩, ⟨.deleteState "GWALLET" "XLM/USDC", 3, true⟩]

theorem never_resurrects_iff_sample :
    ((run jsonCodec hexSha256 {} (healedCalls.take 3)).getState jsonCodec hexSha256 {} "GWALLET"
      "XLM/USDC" 3 true).2 = some { sampleState with lastUpdated := 2 } ∧
    ∀ before, before <+: healedCalls → ReadsLastSet jsonCodec hexSha256 {} before := by
  have horder : InOrder jsonCodec hexSha256 {} healedCalls := by
    refine ⟨by decide, ?_, by decide +kernel⟩
    simp [healedCalls, sampleState]
  have hclean : Along (Store.next jsonCodec hexSha256 {}) (CleanCall hexSha256 {}) (.init Unit)
      healedCalls := by
    decide +kernel
  exact ⟨by decide +kernel, (never_resurrects_iff jsonCodec hexSha256 {} _ horder).mpr hclean⟩

end Examples

end FeatureStoreRuns
