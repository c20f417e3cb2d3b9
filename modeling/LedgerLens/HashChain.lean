import Mathlib.Data.List.Nodup
import Mathlib.Data.List.Infix

/-!
# Hash chains

A list of entries in which each names the tag of the one before it, the first a root. A chain
made of the entries of another one, whose tags are distinct, is a prefix of it.
-/
namespace HashChain

variable {Entry Tag : Type*} {prev tag : Entry → Tag}

def Linked (prev tag : Entry → Tag) : Tag → List Entry → Prop
  | _, [] => True
  | root, e :: es => prev e = root ∧ Linked prev tag (tag e) es

def lastTag (tag : Entry → Tag) (root : Tag) (es : List Entry) : Tag :=
  (es.getLast?.map tag).getD root

@[simp] theorem lastTag_nil (root : Tag) : lastTag tag root [] = root := rfl

theorem lastTag_cons (root : Tag) (e : Entry) (es : List Entry) :
    lastTag tag root (e :: es) = lastTag tag (tag e) es := by
  cases es with
  | nil => rfl
  | cons e' es =>
    unfold lastTag
    rw [List.getLast?_cons_cons, List.getLast?_cons]
    rfl

theorem lastTag_mem {root : Tag} {es : List Entry} (h : es ≠ []) :
    lastTag tag root es ∈ es.map tag := by
  rw [lastTag, List.getLast?_eq_some_getLast h]
  exact List.mem_map_of_mem (List.getLast_mem h)

theorem linked_append {root : Tag} {es fs : List Entry} :
    Linked prev tag root (es ++ fs) ↔
      Linked prev tag root es ∧ Linked prev tag (lastTag tag root es) fs := by
  induction es generalizing root with
  | nil => simp [Linked]
  | cons e es ih =>
    rw [List.cons_append, Linked, Linked, ih, lastTag_cons]
    exact and_assoc.symm

theorem linked_concat {root : Tag} {es : List Entry} {e : Entry} :
    Linked prev tag root (es ++ [e]) ↔
      Linked prev tag root es ∧ prev e = lastTag tag root es := by
  rw [linked_append]
  simp [Linked]

theorem linked_map {Entry' : Type*} {f : Entry' → Entry} {root : Tag} {es : List Entry'} :
    Linked prev tag root (es.map f) ↔
        Linked (fun e => prev (f e)) (fun e => tag (f e)) root es := by
  induction es generalizing root with
  | nil => exact Iff.rfl
  | cons e es ih => exact and_congr Iff.rfl ih

theorem Linked.prev_mem {root : Tag} {es : List Entry} (h : Linked prev tag root es) {e : Entry}
    (he : e ∈ es) : prev e = root ∨ prev e ∈ es.map tag := by
  induction es generalizing root with
  | nil => cases he
  | cons d es ih =>
    rcases List.mem_cons.mp he with rfl | he
    · exact .inl h.1
    · rcases ih h.2 he with heq | hmem
      · exact .inr (heq ▸ List.mem_map_of_mem List.mem_cons_self)
      · exact .inr (by rw [List.map_cons]; exact List.mem_cons_of_mem _ hmem)

theorem Linked.eq_head {root : Tag} {e : Entry} {es : List Entry}
    (h : Linked prev tag root (e :: es)) (hroot : root ∉ (e :: es).map tag) {d : Entry}
    (hd : d ∈ e :: es) (hprev : prev d = root) : d = e := by
  rcases List.mem_cons.mp hd with rfl | hd
  · rfl
  · exfalso
    apply hroot
    rcases h.2.prev_mem hd with heq | hmem
    · rw [← hprev, heq]
      exact List.mem_map_of_mem List.mem_cons_self
    · rw [← hprev, List.map_cons]
      exact List.mem_cons_of_mem _ hmem

theorem Linked.prefix_of_subset {root : Tag} {es fs : List Entry} (hes : Linked prev tag root es)
    (hfs : Linked prev tag root fs) (hnodup : (es.map tag).Nodup) (hroot : root ∉ es.map tag)
    (hsub : ∀ e ∈ fs, e ∈ es) : fs <+: es := by
  induction fs generalizing root es with
  | nil => exact List.nil_prefix
  | cons f fs ih =>
    cases es with
    | nil => exact absurd (hsub f List.mem_cons_self) List.not_mem_nil
    | cons e es =>
      obtain rfl : f = e := hes.eq_head hroot (hsub f List.mem_cons_self) hfs.1
      obtain ⟨hfresh, hnodup⟩ := List.nodup_cons.mp hnodup
      rw [List.cons_prefix_cons]
      refine ⟨rfl, ih hes.2 hfs.2 hnodup hfresh fun d hd => ?_⟩
      rcases List.mem_cons.mp (hsub d (List.mem_cons_of_mem _ hd)) with rfl | hmem
      · -- The head cannot come again: what follows it names tags, not the root.
        exfalso
        apply hroot
        rcases hfs.2.prev_mem hd with heq | hmem
        · rw [← hes.1, heq]
          exact List.mem_map_of_mem List.mem_cons_self
        · rw [← hes.1]
          obtain ⟨d', hd', heq⟩ := List.mem_map.mp hmem
          exact heq ▸ List.mem_map_of_mem (hsub d' (List.mem_cons_of_mem _ hd'))
      · exact hmem

theorem length_of_lastTag_take {root : Tag} {es : List Entry} {n : ℕ}
    (hnodup : (es.map tag).Nodup) (hroot : root ∉ es.map tag) (hn : n ≤ es.length)
    (h : lastTag tag root (es.take n) = lastTag tag root es) : n = es.length := by
  by_contra hne
  obtain ⟨d, ds, hrest⟩ := List.exists_cons_of_ne_nil
    (show es.drop n ≠ [] by simpa using by omega)
  have hsplit : es.take n ++ d :: ds = es := by rw [← hrest, List.take_append_drop]
  have hlast : lastTag tag root es ∈ (d :: ds).map tag := by
    rw [← hsplit, lastTag, List.getLast?_append_of_ne_nil _ (List.cons_ne_nil _ _)]
    exact lastTag_mem (List.cons_ne_nil d ds)
  rw [← hsplit, List.map_append] at hnodup hroot
  rw [← h] at hlast
  by_cases hempty : es.take n = []
  · rw [hempty, lastTag_nil] at hlast
    exact hroot (List.mem_append_right _ hlast)
  · exact (List.nodup_append.mp hnodup).2.2 _ (lastTag_mem hempty) _ hlast rfl

end HashChain
