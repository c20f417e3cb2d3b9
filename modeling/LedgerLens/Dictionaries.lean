import Mathlib.Data.List.Nodup

/-!
# Dictionaries

Entries in the order of insertion, with one value for each key. What a dictionary maps its keys to
decides what another one maps them to once all its entries are written there.
-/
namespace Dictionaries

variable {κ α β : Type*}

structure Dictionary (κ α : Type*) where
  entries : List (κ × α)
  nodup : (entries.map Prod.fst).Nodup
  deriving DecidableEq

namespace Dictionary

def empty : Dictionary κ α := ⟨[], .nil⟩

def keys (d : Dictionary κ α) : List κ := d.entries.map Prod.fst

/-- The values that `f` makes of them. -/
def mapValues (f : α → β) (d : Dictionary κ α) : Dictionary κ β where
  entries := d.entries.map fun e => (e.1, f e.2)
  nodup := by
    rw [List.map_map]
    exact d.nodup

theorem keys_mapValues (f : α → β) (d : Dictionary κ α) : (d.mapValues f).keys = d.keys := by
  rw [keys, mapValues, List.map_map]
  rfl

theorem entries_nodup (d : Dictionary κ α) : d.entries.Nodup := .of_map _ d.nodup

/-- The values that `f` makes of them, where it makes any. -/
def filterMap (f : κ → α → Option β) (d : Dictionary κ α) : Dictionary κ β where
  entries := d.entries.filterMap fun e => (f e.1 e.2).map (e.1, ·)
  nodup := by
    have hnodup := d.nodup
    rw [List.Nodup, List.pairwise_map] at hnodup ⊢
    refine List.pairwise_filterMap.mpr (hnodup.imp fun {e e'} hne a ha a' ha' => ?_)
    obtain ⟨v, -, rfl⟩ := Option.map_eq_some_iff.mp ha
    obtain ⟨v', -, rfl⟩ := Option.map_eq_some_iff.mp ha'
    exact hne

theorem mem_filterMap {f : κ → α → Option β} {d : Dictionary κ α} {k : κ} {v : β} :
    (k, v) ∈ (d.filterMap f).entries ↔ ∃ u, (k, u) ∈ d.entries ∧ f k u = some v := by
  rw [filterMap, List.mem_filterMap]
  constructor
  · rintro ⟨e, he, hmap⟩
    obtain ⟨u, hu, heq⟩ := Option.map_eq_some_iff.mp hmap
    obtain ⟨rfl, rfl⟩ := Prod.mk.inj heq
    exact ⟨e.2, he, hu⟩
  · rintro ⟨u, hu, hf⟩
    exact ⟨(k, u), hu, by rw [hf]; rfl⟩

variable [DecidableEq κ]

def get? (d : Dictionary κ α) (k : κ) : Option α :=
  (d.entries.find? fun e => e.1 = k).map Prod.snd

/-- A key that is there keeps its place. -/
def set (d : Dictionary κ α) (k : κ) (v : α) : Dictionary κ α :=
  if h : k ∈ d.keys then
    { entries := d.entries.map fun e => if e.1 = k then (k, v) else e
      nodup := by
        have hkeys : (Prod.fst ∘ fun e : κ × α => if e.1 = k then (k, v) else e) = Prod.fst := by
          funext e
          rw [Function.comp_apply]
          split_ifs with hk
          · exact hk.symm
          · rfl
        rw [List.map_map, hkeys]
        exact d.nodup }
  else
    { entries := d.entries ++ [(k, v)]
      nodup := by
        rw [List.map_append, List.nodup_append]
        refine ⟨d.nodup, List.nodup_singleton k, ?_⟩
        rintro a ha b hb rfl
        obtain rfl : a = k := List.mem_singleton.mp hb
        exact h ha }

theorem get?_eq_some {d : Dictionary κ α} {k : κ} {v : α} :
    d.get? k = some v ↔ (k, v) ∈ d.entries := by
  rw [get?, Option.map_eq_some_iff]
  constructor
  · rintro ⟨e, he, rfl⟩
    have hk : e.1 = k := by simpa using List.find?_some he
    rw [← hk]
    exact List.mem_of_find?_eq_some he
  · intro hmem
    have hfound : (d.entries.find? fun e => decide (e.1 = k)).isSome := by
      rw [List.find?_isSome]
      exact ⟨(k, v), hmem, decide_eq_true rfl⟩
    obtain ⟨e, he⟩ := Option.isSome_iff_exists.mp hfound
    have hk : e.1 = k := by simpa using List.find?_some he
    have heq := List.inj_on_of_nodup_map d.nodup (List.mem_of_find?_eq_some he) hmem hk
    exact ⟨e, he, by rw [heq]⟩

theorem mem_keys_iff {d : Dictionary κ α} {k : κ} : k ∈ d.keys ↔ ∃ v, d.get? k = some v := by
  rw [keys, List.mem_map]
  constructor
  · rintro ⟨e, he, rfl⟩
    exact ⟨e.2, get?_eq_some.mpr he⟩
  · rintro ⟨v, hv⟩
    exact ⟨(k, v), get?_eq_some.mp hv, rfl⟩

theorem mem_set {d : Dictionary κ α} {k : κ} {v : α} {e : κ × α} :
    e ∈ (d.set k v).entries ↔ e = (k, v) ∨ (e ∈ d.entries ∧ e.1 ≠ k) := by
  rw [set]
  split_ifs with h
  · rw [List.mem_map]
    constructor
    · rintro ⟨e', he', rfl⟩
      by_cases hk : e'.1 = k
      · exact .inl (if_pos hk)
      · rw [if_neg hk]
        exact .inr ⟨he', hk⟩
    · rintro (rfl | ⟨he, hk⟩)
      · obtain ⟨e', he', hk⟩ := List.mem_map.mp h
        exact ⟨e', he', if_pos hk⟩
      · exact ⟨e, he, if_neg hk⟩
  · rw [List.mem_append, List.mem_singleton]
    constructor
    · rintro (he | rfl)
      · exact .inr ⟨he, fun hk => h (hk ▸ List.mem_map_of_mem he)⟩
      · exact .inl rfl
    · rintro (rfl | ⟨he, -⟩)
      · exact .inr rfl
      · exact .inl he

@[simp] theorem get?_empty (k : κ) : (empty : Dictionary κ α).get? k = none := rfl

@[simp] theorem get?_set_self (d : Dictionary κ α) (k : κ) (v : α) : (d.set k v).get? k = some v :=
  get?_eq_some.mpr (mem_set.mpr (.inl rfl))

theorem get?_set_of_ne (d : Dictionary κ α) {k k' : κ} (h : k' ≠ k) (v : α) :
    (d.set k v).get? k' = d.get? k' := by
  apply Option.ext
  intro v'
  rw [get?_eq_some, get?_eq_some, mem_set]
  constructor
  · rintro (heq | ⟨hmem, -⟩)
    · exact absurd (Prod.mk.inj heq).1 h
    · exact hmem
  · exact fun hmem => .inr ⟨hmem, h⟩

theorem mem_keys_set (d : Dictionary κ α) (k : κ) (v : α) {k' : κ} (h : k' ∈ d.keys) :
    k' ∈ (d.set k v).keys := by
  rw [mem_keys_iff]
  by_cases hk : k' = k
  · exact ⟨v, hk ▸ get?_set_self d k v⟩
  · rw [get?_set_of_ne d hk]
    exact mem_keys_iff.mp h

theorem get?_mapValues (f : α → β) (d : Dictionary κ α) (k : κ) :
    (d.mapValues f).get? k = (d.get? k).map f := by
  rw [get?, get?, mapValues, List.find?_map, Option.map_map, Option.map_map]
  rfl

def erase (d : Dictionary κ α) (k : κ) : Dictionary κ α :=
  d.filterMap fun k' v => if k' = k then none else some v

theorem get?_filterMap (f : κ → α → Option β) (d : Dictionary κ α) (k : κ) :
    (d.filterMap f).get? k = (d.get? k).bind (f k) := by
  apply Option.ext
  intro v
  rw [get?_eq_some, mem_filterMap, Option.bind_eq_some_iff]
  simp only [get?_eq_some]

@[simp] theorem get?_erase_self (d : Dictionary κ α) (k : κ) : (d.erase k).get? k = none := by
  rw [erase, get?_filterMap]
  cases d.get? k <;> simp

theorem get?_erase_of_ne (d : Dictionary κ α) {k k' : κ} (h : k' ≠ k) :
    (d.erase k).get? k' = d.get? k' := by
  rw [erase, get?_filterMap]
  cases d.get? k' <;> simp [h]

theorem mem_erase {d : Dictionary κ α} {k : κ} {e : κ × α} :
    e ∈ (d.erase k).entries ↔ e ∈ d.entries ∧ e.1 ≠ k := by
  obtain ⟨k', v⟩ := e
  rw [erase, mem_filterMap]
  by_cases hk : k' = k <;> simp [hk]

theorem entries_set_perm (d : Dictionary κ α) (k : κ) (v : α) :
    (d.set k v).entries.Perm ((k, v) :: (d.erase k).entries) := by
  have hnodup : ((k, v) :: (d.erase k).entries).Nodup :=
    List.nodup_cons.mpr ⟨fun h => (mem_erase.mp h).2 rfl, entries_nodup _⟩
  refine (List.perm_ext_iff_of_nodup (entries_nodup _) hnodup).mpr fun e => ?_
  rw [mem_set, List.mem_cons, mem_erase]

theorem entries_perm {d : Dictionary κ α} {k : κ} {v : α} (h : d.get? k = some v) :
    d.entries.Perm ((k, v) :: (d.erase k).entries) := by
  have hnodup : ((k, v) :: (d.erase k).entries).Nodup :=
    List.nodup_cons.mpr ⟨fun h => (mem_erase.mp h).2 rfl, entries_nodup _⟩
  refine (List.perm_ext_iff_of_nodup (entries_nodup _) hnodup).mpr fun e => ?_
  rw [List.mem_cons, mem_erase]
  constructor
  · intro he
    by_cases hk : e.1 = k
    · subst hk
      exact .inl (Prod.ext rfl (Option.some.inj ((get?_eq_some.mpr he).symm.trans h)))
    · exact .inr ⟨he, hk⟩
  · rintro (rfl | ⟨he, -⟩)
    · exact get?_eq_some.mp h
    · exact he

theorem entries_erase_of_none {d : Dictionary κ α} {k : κ} (h : d.get? k = none) :
    (d.erase k).entries = d.entries := by
  rw [erase, filterMap]
  refine (List.filterMap_congr fun e he => ?_).trans List.filterMap_some
  have hk : e.1 ≠ k := by
    rintro rfl
    rw [get?_eq_some.mpr he] at h
    cases h
  rw [if_neg hk]
  rfl

theorem flatMap_perm (d : Dictionary κ α) (k : κ) (f : κ × α → List β) :
    (d.entries.flatMap f).Perm
      (((d.get? k).elim [] fun v => f (k, v)) ++ (d.erase k).entries.flatMap f) := by
  cases h : d.get? k with
  | none => rw [entries_erase_of_none h, Option.elim_none, List.nil_append]
  | some v => exact (entries_perm h).flatMap_right f

def Same (d d' : Dictionary κ α) : Prop := ∀ k, d.get? k = d'.get? k

theorem Same.refl (d : Dictionary κ α) : d.Same d := fun _ => rfl

theorem Same.trans {d d' d'' : Dictionary κ α} (h : d.Same d') (h' : d'.Same d'') : d.Same d'' :=
  fun k => (h k).trans (h' k)

theorem Same.mem_keys_iff {d d' : Dictionary κ α} (h : d.Same d') {k : κ} :
    k ∈ d.keys ↔ k ∈ d'.keys := by
  rw [Dictionary.mem_keys_iff, Dictionary.mem_keys_iff, h k]

theorem Same.set {d d' : Dictionary κ α} (h : d.Same d') (k : κ) (v : α) :
    (d.set k v).Same (d'.set k v) := by
  intro k'
  by_cases hk : k' = k
  · rw [hk, get?_set_self, get?_set_self]
  · rw [get?_set_of_ne d hk, get?_set_of_ne d' hk, h k']

def setAll (d : Dictionary κ α) (l : List (κ × α)) : Dictionary κ α :=
  l.foldl (fun d e => d.set e.1 e.2) d

theorem get?_setAll_of_notMem {d : Dictionary κ α} {l : List (κ × α)} {k : κ}
    (h : k ∉ l.map Prod.fst) : (d.setAll l).get? k = d.get? k := by
  induction l generalizing d with
  | nil => rfl
  | cons e l ih =>
    rw [List.map_cons, List.mem_cons, not_or] at h
    have hrest : ((d.set e.1 e.2).setAll l).get? k = (d.set e.1 e.2).get? k := ih h.2
    exact hrest.trans (get?_set_of_ne d h.1 e.2)

theorem get?_setAll_of_mem {d : Dictionary κ α} {l : List (κ × α)} {k : κ} {v : α}
    (hnodup : (l.map Prod.fst).Nodup) (h : (k, v) ∈ l) : (d.setAll l).get? k = some v := by
  induction l generalizing d with
  | nil => cases h
  | cons e l ih =>
    rw [List.map_cons, List.nodup_cons] at hnodup
    rcases List.mem_cons.mp h with rfl | h
    · have hrest : ((d.set k v).setAll l).get? k = (d.set k v).get? k :=
        get?_setAll_of_notMem hnodup.1
      exact hrest.trans (get?_set_self d k v)
    · exact ih hnodup.2 h

theorem mem_or_mem_of_mem_setAll {d : Dictionary κ α} {l : List (κ × α)} {e : κ × α}
    (h : e ∈ (d.setAll l).entries) : e ∈ l ∨ e ∈ d.entries := by
  induction l generalizing d with
  | nil => exact .inr h
  | cons e' l ih =>
    rcases ih h with hmem | hmem
    · exact .inl (List.mem_cons_of_mem _ hmem)
    · rcases mem_set.mp hmem with rfl | ⟨hold, -⟩
      · exact .inl List.mem_cons_self
      · exact .inr hold

theorem mem_keys_setAll {d : Dictionary κ α} {l : List (κ × α)} {k : κ} :
    k ∈ (d.setAll l).keys ↔ k ∈ l.map Prod.fst ∨ k ∈ d.keys := by
  induction l generalizing d with
  | nil => exact (or_iff_right List.not_mem_nil).symm
  | cons e l ih =>
    have hset : k ∈ (d.set e.1 e.2).keys ↔ k = e.1 ∨ k ∈ d.keys := by
      by_cases hk : k = e.1
      · exact iff_of_true (mem_keys_iff.mpr ⟨e.2, hk ▸ get?_set_self d e.1 e.2⟩) (.inl hk)
      · rw [mem_keys_iff, get?_set_of_ne d hk, ← mem_keys_iff, or_iff_right hk]
    have hrest : k ∈ ((d.set e.1 e.2).setAll l).keys ↔ _ := ih
    rw [hset] at hrest
    rw [List.map_cons, List.mem_cons]
    exact hrest.trans (by tauto)

theorem same_setAll {d d' : Dictionary κ α} (h : ∀ k ∈ d.keys, k ∈ d'.keys) :
    (d.setAll d'.entries).Same d' := by
  intro k
  cases hk : d'.get? k with
  | some v => exact get?_setAll_of_mem d'.nodup (get?_eq_some.mp hk)
  | none =>
    have hnone : k ∉ d'.keys := by
      rw [mem_keys_iff, hk]
      simp
    rw [get?_setAll_of_notMem hnone]
    by_contra hsome
    obtain ⟨v, hv⟩ := Option.ne_none_iff_exists'.mp hsome
    exact hnone (h k (mem_keys_iff.mpr ⟨v, hv⟩))

end Dictionary

end Dictionaries
