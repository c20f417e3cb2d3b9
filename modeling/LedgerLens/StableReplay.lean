import LedgerLens.HashChain
import Mathlib.Data.List.Sort

/-!
# Replaying a chain in key order

Entries are chained as they arrive, each to the one with the greatest key so far, and replayed in
key order, earlier arrivals first among equal keys. The replay of the first `n` follows the chain
exactly where they arrived in key order and nothing that came later has a smaller key.
-/
namespace StableReplay

open HashChain

variable {Entry Key Tag : Type*} [LinearOrder Key] {key : Entry → Key} {tag : Entry → Tag}

def KeyLe (key : Entry → Key) (a b : Entry) : Prop := key a ≤ key b

instance : DecidableRel (KeyLe key) := fun a b => inferInstanceAs (Decidable (key a ≤ key b))

instance : Std.Total (KeyLe key) := ⟨fun a b => le_total (key a) (key b)⟩

instance : IsTrans Entry (KeyLe key) := ⟨fun _ _ _ hab hbc => le_trans hab hbc⟩

/-- A stable sort. -/
def inKeyOrder (key : Entry → Key) (es : List Entry) : List Entry := es.insertionSort (KeyLe key)

/-- The greatest entry, the last to arrive among equals. -/
def latest (key : Entry → Key) (es : List Entry) : Option Entry := (inKeyOrder key es).getLast?

theorem mem_inKeyOrder {es : List Entry} {e : Entry} : e ∈ inKeyOrder key es ↔ e ∈ es :=
  List.mem_insertionSort _

theorem inKeyOrder_perm (es : List Entry) : (inKeyOrder key es).Perm es :=
  List.perm_insertionSort _ es

theorem inKeyOrder_pairwise (es : List Entry) : (inKeyOrder key es).Pairwise (KeyLe key) :=
  List.pairwise_insertionSort _ es

theorem length_inKeyOrder (es : List Entry) : (inKeyOrder key es).length = es.length :=
  List.length_insertionSort _ es

theorem inKeyOrder_idem (es : List Entry) :
    inKeyOrder key (inKeyOrder key es) = inKeyOrder key es :=
  (inKeyOrder_pairwise es).insertionSort_eq

/-- The first `n` arrivals are in order and before all later ones. -/
def ArriveInOrder (key : Entry → Key) (n : ℕ) (es : List Entry) : Prop :=
  (es.take n).Pairwise (KeyLe key) ∧ ∀ a ∈ es.take n, ∀ b ∈ es.drop n, KeyLe key a b

instance (n : ℕ) (es : List Entry) : Decidable (ArriveInOrder key n es) :=
  inferInstanceAs (Decidable (_ ∧ _))

theorem arriveInOrder_map {Entry' : Type*} {f : Entry' → Entry} {n : ℕ} {es : List Entry'} :
    ArriveInOrder key n (es.map f) ↔ ArriveInOrder (fun e => key (f e)) n es := by
  simp only [ArriveInOrder, ← List.map_take, ← List.map_drop, List.pairwise_map,
    List.forall_mem_map]
  rfl

theorem inKeyOrder_append {front back : List Entry} (hfront : front.Pairwise (KeyLe key))
    (hback : ∀ a ∈ front, ∀ b ∈ back, KeyLe key a b) :
    inKeyOrder key (front ++ back) = front ++ inKeyOrder key back := by
  induction front with
  | nil => rfl
  | cons a front ih =>
    obtain ⟨hhead, hfront⟩ := List.pairwise_cons.mp hfront
    have hle : ∀ b ∈ front ++ back, KeyLe key a b := by
      intro b hb
      rcases List.mem_append.mp hb with hb | hb
      · exact hhead b hb
      · exact hback a List.mem_cons_self b hb
    have hrest := ih hfront fun c hc => hback c (List.mem_cons_of_mem _ hc)
    unfold inKeyOrder at hrest ⊢
    rw [List.cons_append, List.insertionSort_cons_of_forall_rel _ hle, hrest, List.cons_append]

theorem mem_drop_inKeyOrder {n : ℕ} {es : List Entry}
    (htake : (inKeyOrder key es).take n = es.take n) {e : Entry} :
    e ∈ (inKeyOrder key es).drop n ↔ e ∈ es.drop n := by
  have hsorted : es.take n ++ (inKeyOrder key es).drop n = inKeyOrder key es := by
    rw [← htake, List.take_append_drop]
  have hperm : (es.take n ++ (inKeyOrder key es).drop n).Perm (es.take n ++ es.drop n) := by
    rw [hsorted, List.take_append_drop]
    exact inKeyOrder_perm es
  exact ((List.perm_append_left_iff _).mp hperm).mem_iff

theorem take_inKeyOrder_iff {n : ℕ} {es : List Entry} :
    (inKeyOrder key es).take n = es.take n ↔ ArriveInOrder key n es := by
  constructor
  · intro htake
    have hsorted : (inKeyOrder key es).Pairwise (KeyLe key) := inKeyOrder_pairwise es
    rw [← List.take_append_drop n (inKeyOrder key es), htake, List.pairwise_append] at hsorted
    exact ⟨hsorted.1, fun a ha b hb => hsorted.2.2 a ha b ((mem_drop_inKeyOrder htake).mpr hb)⟩
  · rintro ⟨hfront, hback⟩
    conv_lhs => rw [← List.take_append_drop n es, inKeyOrder_append hfront hback]
    rcases Nat.le_total n es.length with hn | hn
    · rw [List.take_left' (List.length_take_of_le hn)]
    · rw [List.drop_eq_nil_of_le hn]
      simp [inKeyOrder, List.take_take]

theorem latest_of_pairwise {es : List Entry} (h : es.Pairwise (KeyLe key)) :
    latest key es = es.getLast? := by
  rw [latest, inKeyOrder, h.insertionSort_eq]

theorem latest_eq_none {es : List Entry} (h : latest key es = none) : es = [] := by
  rw [latest, List.getLast?_eq_none_iff] at h
  have hlength : (inKeyOrder key es).length = es.length := length_inKeyOrder es
  rw [h] at hlength
  exact List.length_eq_zero_iff.mp hlength.symm

theorem latest_mem {es : List Entry} {e : Entry} (h : latest key es = some e) : e ∈ es :=
  mem_inKeyOrder.mp (List.mem_of_getLast? h)

theorem latest_lt {front back : List Entry} {e : Entry}
    (h : latest key (front ++ e :: back) = some e) (hnodup : (front ++ e :: back).Nodup) :
    ∀ b ∈ back, ¬ KeyLe key e b := by
  intro b hb hle
  have hpair : [e, b].Sublist (inKeyOrder key (front ++ e :: back)) := by
    apply List.pair_sublist_insertionSort hle
    exact (List.cons_sublist_cons.mpr (List.singleton_sublist.mpr hb)).trans
      (List.sublist_append_right _ _)
  obtain ⟨init, hinit⟩ := List.getLast?_eq_some_iff.mp h
  have hsorted : (inKeyOrder key (front ++ e :: back)).Nodup :=
    (inKeyOrder_perm _).nodup_iff.mpr hnodup
  rw [hinit] at hpair hsorted
  have hne : b ≠ e := by
    rintro rfl
    exact (List.nodup_cons.mp (List.nodup_append.mp hnodup).2.1).1 hb
  have hmem : e ∈ init := by
    have hreverse := hpair.reverse
    rw [List.reverse_append, List.reverse_singleton, List.singleton_append] at hreverse
    rcases List.cons_sublist_cons'.mp hreverse with hsub | ⟨heq, -⟩
    · exact List.mem_reverse.mp (hsub.subset (List.mem_cons_of_mem _ (List.mem_singleton_self e)))
    · exact absurd heq hne
  exact (List.nodup_append.mp hsorted).2.2 e hmem e (List.mem_singleton_self e) rfl

theorem lastTag_some (es : List Entry) :
    lastTag (fun e => some (tag e)) none es = es.getLast?.map tag := by
  unfold lastTag
  cases es.getLast? <;> rfl

section

variable [DecidableEq Entry]

def predecessor (key : Entry → Key) (tag : Entry → Tag) (es : List Entry) (e : Entry) :
    Option Tag :=
  (latest key (es.takeWhile fun d => decide (d ≠ e))).map tag

theorem takeWhile_ne {front back : List Entry} {e : Entry} (hnodup : (front ++ e :: back).Nodup) :
    (front ++ e :: back).takeWhile (fun d => decide (d ≠ e)) = front := by
  have hfront : ∀ d ∈ front, decide (d ≠ e) = true := by
    intro d hd
    exact decide_eq_true ((List.nodup_append.mp hnodup).2.2 d hd e List.mem_cons_self)
  rw [List.takeWhile_append_of_pos hfront, List.takeWhile_cons_of_neg (by simp), List.append_nil]

theorem predecessor_eq {front back : List Entry} {e : Entry}
    (hnodup : (front ++ e :: back).Nodup) :
    predecessor key tag (front ++ e :: back) e = (latest key front).map tag := by
  rw [predecessor, takeWhile_ne hnodup]

theorem front_eq {front front' back back' : List Entry} {e : Entry}
    (hnodup : (front ++ e :: back).Nodup) (h : front ++ e :: back = front' ++ e :: back') :
    front = front' := by
  rw [← takeWhile_ne hnodup, h, takeWhile_ne (h ▸ hnodup)]

/-- The arrivals up to `n` follow the chain as long as they come in key order. -/
theorem linked_take {n : ℕ} {es : List Entry} (hnodup : es.Nodup)
    (h : (es.take n).Pairwise (KeyLe key)) :
    Linked (predecessor key tag es) (fun e => some (tag e)) none (es.take n) := by
  induction n with
  | zero => trivial
  | succ n ih =>
    rcases Nat.lt_or_ge n es.length with hn | hn
    · rw [List.take_succ_eq_append_getElem hn] at h ⊢
      have hfront := (List.pairwise_append.mp h).1
      have hsplit : es.take n ++ es[n] :: es.drop (n + 1) = es := by
        rw [← List.drop_eq_getElem_cons hn, List.take_append_drop]
      have hpred : predecessor key tag (es.take n ++ es[n] :: es.drop (n + 1)) es[n] =
          (latest key (es.take n)).map tag := predecessor_eq (hsplit.symm ▸ hnodup)
      rw [hsplit, latest_of_pairwise hfront] at hpred
      exact linked_concat.mpr ⟨ih hfront, hpred.trans (lastTag_some _).symm⟩
    · rw [List.take_of_length_le (by omega)] at h ⊢
      rw [List.take_of_length_le hn] at ih
      exact ih h

/-- Where the first `k` of the replay are the first `k` arrivals, an entry chained to the last of
them that is replayed next arrived next. -/
theorem arrived_next {k : ℕ} {front back : List Entry} {e : Entry}
    (htags : ((front ++ e :: back).map tag).Nodup)
    (htake : (inKeyOrder key (front ++ e :: back)).take k = (front ++ e :: back).take k)
    (hlatest : (latest key front).map tag = ((front ++ e :: back).take k).getLast?.map tag) :
    (front ++ e :: back)[k]? = some e := by
  have hnodup : (front ++ e :: back).Nodup := htags.of_map
  cases hlast : ((front ++ e :: back).take k).getLast? with
  | none =>
    rw [hlast, Option.map_none, Option.map_eq_none_iff] at hlatest
    obtain rfl := latest_eq_none hlatest
    rw [List.getLast?_eq_none_iff, List.take_eq_nil_iff] at hlast
    obtain rfl : k = 0 := hlast.resolve_right nofun
    rfl
  | some x =>
    obtain ⟨init, hinit⟩ := List.getLast?_eq_some_iff.mp hlast
    rw [hlast, Option.map_some, Option.map_eq_some_iff] at hlatest
    obtain ⟨x', hx', htag⟩ := hlatest
    have hx : x ∈ front ++ e :: back :=
      List.mem_of_mem_take (hinit ▸ List.mem_append_right _ (List.mem_singleton_self x))
    obtain rfl : x' = x :=
      List.inj_on_of_nodup_map htags (List.mem_append_left _ (latest_mem hx')) hx htag
    obtain ⟨before, after, rfl⟩ := List.append_of_mem (latest_mem hx')
    have hdrop : (before ++ x' :: after ++ e :: back).drop k = after ++ e :: back := by
      have hsplit := List.take_append_drop k (before ++ x' :: after ++ e :: back)
      rw [hinit, List.append_assoc, List.singleton_append] at hsplit
      have hinit' : init = before :=
        front_eq (hsplit.symm ▸ hnodup) (hsplit.trans (List.append_assoc _ _ _))
      rw [hinit'] at hsplit
      have hcons := hsplit.trans (List.append_assoc before (x' :: after) (e :: back))
      exact (List.cons.inj (List.append_cancel_left hcons)).2
    cases after with
    | nil =>
      rw [← List.head?_drop, hdrop]
      rfl
    | cons y after =>
      exfalso
      -- Later than the latest entry, `y` has a smaller key, and the replay would meet it first.
      have hlt := latest_lt hx' (List.nodup_append.mp hnodup).1 y List.mem_cons_self
      apply hlt
      have hsorted : (inKeyOrder key (before ++ x' :: y :: after ++ e :: back)).Pairwise
          (KeyLe key) := inKeyOrder_pairwise _
      rw [← List.take_append_drop k (inKeyOrder key _), List.pairwise_append] at hsorted
      apply hsorted.2.2 x' _ y
      · rw [mem_drop_inKeyOrder htake, hdrop]
        exact List.mem_append_left _ List.mem_cons_self
      · rw [htake, hinit]
        exact List.mem_append_right _ (List.mem_singleton_self x')

/-- A replay that follows the chain meets the entries as they arrived. -/
theorem take_eq_of_linked {n : ℕ} {es : List Entry} (htags : (es.map tag).Nodup)
    (h : Linked (predecessor key tag es) (fun e => some (tag e)) none
      ((inKeyOrder key es).take n)) :
    (inKeyOrder key es).take n = es.take n := by
  have hlength : (inKeyOrder key es).length = es.length := length_inKeyOrder es
  induction n with
  | zero => rfl
  | succ n ih =>
    rcases Nat.lt_or_ge n es.length with hn | hn
    · have hn' : n < (inKeyOrder key es).length := hlength ▸ hn
      rw [List.take_succ_eq_append_getElem hn'] at h
      obtain ⟨hlinked, hprev⟩ := linked_concat.mp h
      have htake := ih hlinked
      obtain ⟨front, back, hsplit⟩ :=
        List.append_of_mem (mem_inKeyOrder.mp (List.getElem_mem hn'))
      have hpred := @predecessor_eq _ _ _ _ key tag _ front back _ (hsplit ▸ htags.of_map)
      rw [← hsplit] at hpred
      rw [hpred, lastTag_some, htake] at hprev
      have hnext := @arrived_next _ _ _ _ key tag _ n front back _ (hsplit ▸ htags)
        (by rw [← hsplit, htake]) (by rw [← hsplit, hprev])
      rw [← hsplit, List.getElem?_eq_getElem hn, Option.some.injEq] at hnext
      rw [List.take_succ_eq_append_getElem hn', List.take_succ_eq_append_getElem hn, htake, hnext]
    · rw [List.take_of_length_le (hlength ▸ Nat.le_succ_of_le hn)] at h ⊢
      rw [List.take_of_length_le (hlength ▸ hn), List.take_of_length_le hn] at ih
      rw [List.take_of_length_le (Nat.le_succ_of_le hn)]
      exact ih h

theorem linked_replay_iff {n : ℕ} {es : List Entry} (htags : (es.map tag).Nodup) :
    Linked (predecessor key tag es) (fun e => some (tag e)) none ((inKeyOrder key es).take n) ↔
      ArriveInOrder key n es := by
  rw [← take_inKeyOrder_iff]
  constructor
  · exact take_eq_of_linked htags
  · intro htake
    rw [htake]
    exact linked_take htags.of_map (take_inKeyOrder_iff.mp htake).1

end

end StableReplay
