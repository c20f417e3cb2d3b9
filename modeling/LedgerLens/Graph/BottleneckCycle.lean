import LedgerLens.Graph.SimpleCycles
import Mathlib.Data.Finset.Max
import Mathlib.Data.Nat.BitIndices
import Mathlib.Data.Nat.Bitwise
import Mathlib.Order.Lattice

/-!
# Bottleneck cycles

`_max_bottleneck_cycle` of `detection/graph_engine.py`. The result is described by thresholds: the
search returns at least `c > 0` exactly where there is a long enough simple cycle all of whose
weights are at least `c`.
-/
namespace BottleneckCycle

open SimpleCycles StrongComponents

variable {W : Type*} [LinearOrder W]

/-- The edges out of each node, with their weights. -/
abbrev Adjacency (W : Type*) := List (List (ℕ × W))

def edgesFrom (adjacency : Adjacency W) (v : ℕ) : List (ℕ × W) := adjacency.getD v []

/-- The value of an entry of the table: `NEG_INF`, a weight, or `POS_INF` for the bare root. -/
inductive Bottleneck (W : Type*) where
  | unreached
  | finite (w : W)
  | unbounded
  deriving DecidableEq

/-- `weight if bottleneck == POS_INF else min(bottleneck, weight)`. -/
def Bottleneck.through : Bottleneck W → W → W
  | .finite b, weight => min b weight
  | _, weight => weight

def Bottleneck.AtLeast : Bottleneck W → W → Prop
  | .unreached, _ => False
  | .finite b, c => c ≤ b
  | .unbounded, _ => True

instance (b : Bottleneck W) (c : W) : Decidable (b.AtLeast c) := by
  cases b <;> unfold Bottleneck.AtLeast <;> infer_instance

/-- `dp[mask][local]`. -/
abbrev Table (W : Type*) := ℕ → ℕ → Bottleneck W

def Table.start : Table W := fun mask v => if mask = 1 ∧ v = 0 then .unbounded else .unreached

def Table.set (dp : Table W) (mask v : ℕ) (b : Bottleneck W) : Table W :=
  fun mask' v' => if mask' = mask ∧ v' = v then b else dp mask' v'

/-- One edge out of a path that visits `mask` and has the given bottleneck. -/
def relaxEdge (root mask : ℕ) (bottleneck : Bottleneck W) (dp : Table W) (edge : ℕ × W) :
    Table W :=
  if edge.1 < root then dp
  else if mask.testBit (edge.1 - root) then dp
  else
    let newMask := mask ||| (1 <<< (edge.1 - root))
    let candidate := bottleneck.through edge.2
    if (dp newMask (edge.1 - root)).AtLeast candidate then dp
    else dp.set newMask (edge.1 - root) (.finite candidate)

def relaxNode (adjacency : Adjacency W) (root mask : ℕ) (dp : Table W) (v : ℕ) : Table W :=
  if dp mask v = .unreached then dp
  else (edgesFrom adjacency (root + v)).foldl (relaxEdge root mask (dp mask v)) dp

def relaxMask (adjacency : Adjacency W) (root span : ℕ) (dp : Table W) (mask : ℕ) : Table W :=
  (List.range span).foldl (relaxNode adjacency root mask) dp

/-- The masks in rising order: `range(1, 1 << span)`. -/
def masks (span : ℕ) : List ℕ := List.range' 1 (1 <<< span - 1)

def pathTable (adjacency : Adjacency W) (root span : ℕ) : Table W :=
  (masks span).foldl (relaxMask adjacency root span) .start

def bitCount (mask : ℕ) : ℕ := mask.bitIndices.length

def closeEdge (root : ℕ) (bottleneck : Bottleneck W) (best : W) (edge : ℕ × W) : W :=
  if edge.1 ≠ root then best
  else if best < bottleneck.through edge.2 then bottleneck.through edge.2 else best

def closeNode (adjacency : Adjacency W) (root mask : ℕ) (dp : Table W) (best : W) (v : ℕ) : W :=
  if dp mask v = .unreached then best
  else (edgesFrom adjacency (root + v)).foldl (closeEdge root (dp mask v)) best

def closeMask (adjacency : Adjacency W) (root span minRingSize : ℕ) (dp : Table W) (best : W)
    (mask : ℕ) : W :=
  if ¬ mask.testBit 0 ∨ bitCount mask < minRingSize then best
  else (List.range' 1 (span - 1)).foldl (closeNode adjacency root mask dp) best

def closeRoot (adjacency : Adjacency W) (n minRingSize : ℕ) (best : W) (root : ℕ) : W :=
  (masks (n - root)).foldl
    (closeMask adjacency root (n - root) minRingSize (pathTable adjacency root (n - root))) best

/-- Roots are tried while enough nodes are left. -/
def maxBottleneckCycle [Zero W] (adjacency : Adjacency W) (n minRingSize : ℕ) : W :=
  ((List.range n).takeWhile fun root => decide (minRingSize ≤ n - root)).foldl
    (closeRoot adjacency n minRingSize) 0

def EdgeAtLeast (adjacency : Adjacency W) (c : W) (u v : ℕ) : Prop :=
  ∃ weight, (v, weight) ∈ edgesFrom adjacency u ∧ c ≤ weight

/-- A simple path from the root to nodes beyond it, its end first, all of whose weights are at
least `c`. -/
inductive SimplePath (adjacency : Adjacency W) (c : W) (root : ℕ) : List ℕ → Prop where
  | start : SimplePath adjacency c root [root]
  | extend {v w : ℕ} {p : List ℕ} : SimplePath adjacency c root (v :: p) →
    EdgeAtLeast adjacency c v w → root ≤ w → w ∉ v :: p →
    SimplePath adjacency c root (w :: v :: p)

/-- The nodes of a path as bits, counted from the root. -/
def pathMask (root : ℕ) (p : List ℕ) : ℕ := p.foldr (fun w mask => mask ||| (1 <<< (w - root))) 0

section

variable {adjacency : Adjacency W} {c : W} {root span mask v w : ℕ} {p : List ℕ}

theorem atLeast_through {b : Bottleneck W} (hb : b ≠ .unreached) {weight : W} :
    c ≤ b.through weight ↔ b.AtLeast c ∧ c ≤ weight := by
  cases b with
  | unreached => exact absurd rfl hb
  | finite b => exact le_min_iff
  | unbounded => simp [Bottleneck.through, Bottleneck.AtLeast]

theorem Bottleneck.AtLeast.mono {b : Bottleneck W} {d : W} (h : b.AtLeast c) (hd : d ≤ c) :
    b.AtLeast d := by
  cases b with
  | unreached => exact h
  | finite b => exact hd.trans h
  | unbounded => trivial

theorem Bottleneck.AtLeast.reached {b : Bottleneck W} (h : b.AtLeast c) : b ≠ .unreached := by
  rintro rfl
  exact h

theorem testBit_pathMask (i : ℕ) :
    (pathMask root p).testBit i = true ↔ ∃ w ∈ p, w - root = i := by
  induction p with
  | nil => simp [pathMask]
  | cons w p ih =>
    rw [pathMask, List.foldr_cons, Nat.testBit_or, Bool.or_eq_true, Nat.one_shiftLeft,
      Nat.testBit_two_pow, decide_eq_true_eq]
    rw [pathMask] at ih
    rw [ih]
    rw [List.exists_mem_cons_iff]
    exact or_comm

namespace SimplePath

theorem root_le (h : SimplePath adjacency c root p) : ∀ w ∈ p, root ≤ w := by
  induction h with
  | start => simp
  | extend _ _ hw _ ih => exact List.forall_mem_cons.mpr ⟨hw, ih⟩

theorem root_mem (h : SimplePath adjacency c root p) : root ∈ p := by
  induction h with
  | start => exact List.mem_cons_self
  | extend _ _ _ _ ih => exact List.mem_cons_of_mem _ ih

theorem lt_of_mem {n : ℕ} (h : SimplePath adjacency c root p) (hroot : root < n)
    (hedges : ∀ u v, EdgeAtLeast adjacency c u v → v < n) : ∀ u ∈ p, u < n := by
  induction h with
  | start => simpa using hroot
  | extend _ hedge _ _ ih => exact List.forall_mem_cons.mpr ⟨hedges _ _ hedge, ih⟩

theorem nodup (h : SimplePath adjacency c root p) : p.Nodup := by
  induction h with
  | start => exact List.nodup_singleton _
  | extend _ _ _ hfresh ih => exact List.nodup_cons.mpr ⟨hfresh, ih⟩

theorem length_le {n : ℕ} (h : SimplePath adjacency c root p) (hroot : root < n)
    (hedges : ∀ u v, EdgeAtLeast adjacency c u v → v < n) : p.length ≤ n - root := by
  have hnodup : (p.map fun w => w - root).Nodup := by
    refine h.nodup.map_on fun a ha b hb heq => ?_
    have := h.root_le a ha
    have := h.root_le b hb
    omega
  have hsub : p.map (fun w => w - root) ⊆ List.range (n - root) := by
    intro i hi
    obtain ⟨w, hw, rfl⟩ := List.mem_map.mp hi
    have := h.lt_of_mem hroot hedges w hw
    have := h.root_le w hw
    exact List.mem_range.mpr (by omega)
  simpa using (hnodup.subperm hsub).length_le

theorem testBit_iff_mem (h : SimplePath adjacency c root p) (hw : root ≤ w) :
    (pathMask root p).testBit (w - root) = true ↔ w ∈ p := by
  rw [testBit_pathMask]
  constructor
  · rintro ⟨u, hu, heq⟩
    have := h.root_le u hu
    rwa [show w = u by omega]
  · exact fun hmem => ⟨w, hmem, rfl⟩

theorem length_eq_bitCount (h : SimplePath adjacency c root p) :
    bitCount (pathMask root p) = p.length := by
  have hperm : (pathMask root p).bitIndices.Perm (p.map fun w => w - root) := by
    rw [List.perm_ext_iff_of_nodup Nat.bitIndices_nodup]
    · intro i
      rw [Nat.mem_bitIndices, testBit_pathMask, List.mem_map]
    · refine h.nodup.map_on fun a ha b hb heq => ?_
      have := h.root_le a ha
      have := h.root_le b hb
      omega
  rw [bitCount, hperm.length_eq, List.length_map]

end SimplePath

theorem lt_or_bit (hbit : mask.testBit v = false) : mask < mask ||| (1 <<< v) := by
  refine Nat.lt_of_testBit v hbit ?_ fun j hj => ?_
  · simp [Nat.one_shiftLeft]
  · rw [Nat.testBit_or, Nat.one_shiftLeft, Nat.testBit_two_pow, decide_eq_false (by omega),
      Bool.or_false]

theorem atLeast_set {dp : Table W} {b : Bottleneck W} {mask' v' : ℕ}
    (hb : ∀ c, (dp mask v).AtLeast c → b.AtLeast c) (h : (dp mask' v').AtLeast c) :
    (dp.set mask v b mask' v').AtLeast c := by
  unfold Table.set
  split_ifs with heq
  · exact hb c (heq.1 ▸ heq.2 ▸ h)
  · exact h

/-- Entries only rise. -/
def Rises (dp dp' : Table W) : Prop := ∀ mask v c, (dp mask v).AtLeast c → (dp' mask v).AtLeast c

theorem Rises.refl (dp : Table W) : Rises dp dp := fun _ _ _ h => h

theorem Rises.trans {dp dp' dp'' : Table W} (h : Rises dp dp') (h' : Rises dp' dp'') :
    Rises dp dp'' := fun mask v c hc => h' mask v c (h mask v c hc)

theorem rises_foldl {α : Type*} {f : Table W → α → Table W} (hf : ∀ dp a, Rises dp (f dp a))
    (l : List α) (dp : Table W) : Rises dp (l.foldl f dp) := by
  induction l generalizing dp with
  | nil => exact .refl dp
  | cons a l ih => exact (hf dp a).trans (ih _)

theorem rises_relaxEdge (b : Bottleneck W) (dp : Table W) (edge : ℕ × W) :
    Rises dp (relaxEdge root mask b dp edge) := by
  unfold relaxEdge
  simp only
  split_ifs with hroot hbit hlarge
  · exact .refl dp
  · exact .refl dp
  · exact .refl dp
  · intro mask' v' c' h
    refine atLeast_set (fun c hc => ?_) h
    -- The old entry is below the candidate.
    exact le_of_not_gt fun hlt => hlarge (hc.mono hlt.le)

theorem rises_relaxNode (dp : Table W) (v : ℕ) :
    Rises dp (relaxNode adjacency root mask dp v) := by
  unfold relaxNode
  split_ifs
  · exact .refl dp
  · exact rises_foldl (rises_relaxEdge _) _ dp

theorem rises_relaxMask (dp : Table W) (mask : ℕ) :
    Rises dp (relaxMask adjacency root span dp mask) :=
  rises_foldl rises_relaxNode _ dp

/-- Every entry that reaches the threshold is that of a path over it. -/
def Sound (adjacency : Adjacency W) (c : W) (root : ℕ) (dp : Table W) : Prop :=
  ∀ mask v, (dp mask v).AtLeast c →
    ∃ p, SimplePath adjacency c root ((root + v) :: p) ∧ pathMask root ((root + v) :: p) = mask

theorem sound_start : Sound adjacency c root (Table.start : Table W) := by
  intro mask v h
  unfold Table.start at h
  split_ifs at h with heq
  · obtain ⟨rfl, rfl⟩ := heq
    exact ⟨[], .start, by simp [pathMask]⟩
  · exact absurd rfl h.reached

theorem Sound.relaxEdge {dp : Table W} (h : Sound adjacency c root dp) {b : Bottleneck W}
    (hb : b ≠ .unreached) (hpath : b.AtLeast c → ∃ p, SimplePath adjacency c root
      ((root + v) :: p) ∧ pathMask root ((root + v) :: p) = mask)
    {edge : ℕ × W} (hedge : edge ∈ edgesFrom adjacency (root + v)) :
    Sound adjacency c root (relaxEdge root mask b dp edge) := by
  unfold BottleneckCycle.relaxEdge
  simp only
  split_ifs with hroot hbit hlarge
  · exact h
  · exact h
  · exact h
  intro mask' v' hc
  unfold Table.set at hc
  split_ifs at hc with heq
  · obtain ⟨rfl, rfl⟩ := heq
    obtain ⟨hbc, hweight⟩ := (atLeast_through hb).mp hc
    obtain ⟨p, hp, hmask⟩ := hpath hbc
    have hle : root ≤ edge.1 := not_lt.mp hroot
    rw [← hmask, hp.testBit_iff_mem hle] at hbit
    refine ⟨(root + v) :: p, ?_, ?_⟩
    · rw [Nat.add_sub_cancel' hle]
      exact hp.extend ⟨edge.2, hedge, hweight⟩ hle hbit
    · rw [Nat.add_sub_cancel' hle, pathMask, List.foldr_cons]
      exact congrArg (· ||| _) hmask
  · exact h mask' v' hc

theorem Sound.relaxNode {dp : Table W} (h : Sound adjacency c root dp) :
    Sound adjacency c root (relaxNode adjacency root mask dp v) := by
  unfold BottleneckCycle.relaxNode
  split_ifs with hreached
  · exact h
  · exact List.foldlRecOn _ _ h fun dp' h' edge hedge =>
      h'.relaxEdge hreached (h mask v) hedge

theorem sound_pathTable (adjacency : Adjacency W) (c : W) (root span : ℕ) :
    Sound adjacency c root (pathTable adjacency root span) :=
  List.foldlRecOn _ _ sound_start fun _ h _ _ =>
    List.foldlRecOn _ _ h fun _ h _ _ => h.relaxNode

/-- The paths within the span whose mask without the end is below `bound` are in the table. -/
def Complete (adjacency : Adjacency W) (c : W) (root span bound : ℕ) (dp : Table W) : Prop :=
  ∀ w p, SimplePath adjacency c root (w :: p) → (∀ u ∈ w :: p, u < root + span) →
    pathMask root p < bound → (dp (pathMask root (w :: p)) (w - root)).AtLeast c

theorem complete_start : Complete adjacency c root span 1 (Table.start : Table W) := by
  intro w p hp hspan hbound
  cases hp with
  | start => simp [pathMask, Table.start, Bottleneck.AtLeast]
  | @extend v _ p hp hedge hw hfresh =>
    exfalso
    have hbit : (pathMask root (v :: p)).testBit (v - root) = true :=
      (testBit_pathMask _).mpr ⟨v, List.mem_cons_self, rfl⟩
    rw [Nat.lt_one_iff.mp hbound, Nat.zero_testBit] at hbit
    cases hbit

theorem foldl_reaches {α β : Type*} {P Q : β → Prop} {f : β → α → β} {l : List α} {a : α}
    (ha : a ∈ l) (hQ : ∀ b x, Q b → Q (f b x)) (hstep : ∀ b, Q b → P (f b a))
    (hP : ∀ b x, P b → P (f b x)) {b : β} (hb : Q b) : P (l.foldl f b) := by
  obtain ⟨front, back, rfl⟩ := List.append_of_mem ha
  rw [List.foldl_append, List.foldl_cons]
  refine List.foldlRecOn _ _ (hstep _ ?_) fun b hb x _ => hP b x hb
  exact List.foldlRecOn _ _ hb fun b hb x _ => hQ b x hb

theorem relaxEdge_reaches {dp : Table W} {b : Bottleneck W} (hb : b.AtLeast c)
    (hp : SimplePath adjacency c root p) (hw : root ≤ w) (hfresh : w ∉ p) {weight : W}
    (hweight : c ≤ weight) :
    (relaxEdge root (pathMask root p) b dp (w, weight) (pathMask root (w :: p))
      (w - root)).AtLeast c := by
  have hcandidate : c ≤ b.through weight := (atLeast_through hb.reached).mpr ⟨hb, hweight⟩
  have hbit : ¬ (pathMask root p).testBit (w - root) = true := by
    rwa [hp.testBit_iff_mem hw]
  have hmask : pathMask root (w :: p) = pathMask root p ||| (1 <<< (w - root)) := rfl
  unfold relaxEdge
  rw [if_neg (not_lt.mpr hw), if_neg hbit, hmask]
  simp only
  split_ifs with hlarge
  · exact hlarge.mono hcandidate
  · rw [Table.set, if_pos ⟨rfl, rfl⟩]
    exact hcandidate

theorem Complete.relaxMask {dp : Table W} (h : Complete adjacency c root span mask dp)
    (hmask : 1 ≤ mask) :
    Complete adjacency c root span (mask + 1) (relaxMask adjacency root span dp mask) := by
  intro w p hp hspan hbound
  rcases Nat.lt_or_ge (pathMask root p) mask with hlt | hge
  · exact rises_relaxMask dp mask _ _ _ (h w p hp hspan hlt)
  obtain rfl : mask = pathMask root p := by omega
  cases hp with
  | start => exact absurd hmask (Nat.not_succ_le_zero 0)
  | @extend v _ q hq hedge hw hfresh =>
    have hv : root ≤ v := hq.root_le v List.mem_cons_self
    have hvq : v ∉ q := (List.nodup_cons.mp hq.nodup).1
    have hprefix : pathMask root q < pathMask root (v :: q) := by
      apply lt_or_bit
      rw [Bool.eq_false_iff, Ne, testBit_pathMask]
      rintro ⟨u, hu, heq⟩
      have := hq.root_le u (List.mem_cons_of_mem _ hu)
      exact hvq ((show u = v by omega) ▸ hu)
    have hreached := h v q hq (fun u hu => hspan u (List.mem_cons_of_mem _ hu)) hprefix
    have hvspan := hspan v (List.mem_cons_of_mem _ List.mem_cons_self)
    obtain ⟨weight, hmem, hweight⟩ := hedge
    refine foldl_reaches (Q := fun dp => (dp (pathMask root (v :: q)) (v - root)).AtLeast c)
      (List.mem_range.mpr (by omega : v - root < span))
      (fun dp u hdp => rises_relaxNode dp u _ _ _ hdp) (fun dp hdp => ?_)
      (fun dp u hdp => rises_relaxNode dp u _ _ _ hdp) hreached
    unfold relaxNode
    rw [if_neg hdp.reached]
    refine foldl_reaches (Q := fun _ => True) (a := (w, weight)) ?_ (fun _ _ _ => trivial)
      (fun dp' _ => relaxEdge_reaches hdp hq hw hfresh hweight)
      (fun dp' edge hdp' => rises_relaxEdge _ dp' edge _ _ _ hdp') trivial
    rwa [Nat.add_sub_cancel' hv]

theorem complete_pathTable (adjacency : Adjacency W) (c : W) (root span : ℕ) :
    Complete adjacency c root span (1 <<< span) (pathTable adjacency root span) := by
  have hprefix : ∀ k, Complete adjacency c root span (1 + k)
      ((List.range' 1 k).foldl (relaxMask adjacency root span) .start) := by
    intro k
    induction k with
    | zero => exact complete_start
    | succ k ih =>
      rw [List.range'_concat, List.foldl_append, ← Nat.add_assoc]
      simpa using ih.relaxMask (Nat.le_add_right 1 k)
  have := hprefix (1 <<< span - 1)
  rwa [Nat.add_sub_cancel' (Nat.one_shiftLeft span ▸ Nat.one_le_two_pow)] at this

theorem pathMask_lt (hspan : ∀ u ∈ p, u < root + span) (hp : SimplePath adjacency c root p) :
    pathMask root p < 1 <<< span := by
  rw [Nat.one_shiftLeft]
  apply Nat.lt_pow_two_of_testBit
  intro i hi
  rw [Bool.eq_false_iff, Ne, testBit_pathMask]
  rintro ⟨u, hu, rfl⟩
  have := hspan u hu
  have := hp.root_le u hu
  omega

theorem pathTable_reaches (hp : SimplePath adjacency c root (w :: p))
    (hspan : ∀ u ∈ w :: p, u < root + span) :
    (pathTable adjacency root span (pathMask root (w :: p)) (w - root)).AtLeast c := by
  apply complete_pathTable adjacency c root span w p hp hspan
  refine Nat.lt_of_le_of_lt ?_ (pathMask_lt hspan hp)
  exact Nat.left_le_or

structure ClosedPath (adjacency : Adjacency W) (c : W) (minRingSize root w : ℕ) (p : List ℕ) :
    Prop where
  path : SimplePath adjacency c root (w :: p)
  leaves : w ≠ root
  closing : EdgeAtLeast adjacency c w root
  long : minRingSize ≤ (w :: p).length

theorem le_foldl_iff {α : Type*} {f : W → α → W} {P : α → Prop} {l : List α}
    (hf : ∀ best, ∀ a ∈ l, c ≤ f best a ↔ c ≤ best ∨ P a) (best : W) :
    c ≤ l.foldl f best ↔ c ≤ best ∨ ∃ a ∈ l, P a := by
  induction l generalizing best with
  | nil => simp
  | cons a l ih =>
    rw [List.foldl_cons, ih (fun best b hb => hf best b (List.mem_cons_of_mem _ hb)),
      hf best a List.mem_cons_self, List.exists_mem_cons_iff, or_assoc]

theorem le_closeEdge_iff (b : Bottleneck W) (best : W) (edge : ℕ × W) :
    c ≤ closeEdge root b best edge ↔ c ≤ best ∨ edge.1 = root ∧ c ≤ b.through edge.2 := by
  unfold closeEdge
  split_ifs with hroot hlt
  · exact (or_iff_left fun h => hroot h.1).symm
  · rw [not_not] at hroot
    exact ⟨fun h => .inr ⟨hroot, h⟩, fun h => h.elim (fun h => h.trans hlt.le) And.right⟩
  · exact ⟨.inl, fun h => h.elim id fun h => h.2.trans (not_lt.mp hlt)⟩

theorem le_closeNode_iff (dp : Table W) (best : W) (v : ℕ) :
    c ≤ closeNode adjacency root mask dp best v ↔
      c ≤ best ∨ (dp mask v).AtLeast c ∧ EdgeAtLeast adjacency c (root + v) root := by
  unfold closeNode
  split_ifs with hreached
  · exact (or_iff_left fun h => h.1.reached hreached).symm
  · rw [le_foldl_iff fun best edge _ => le_closeEdge_iff (dp mask v) best edge]
    refine or_congr_right ⟨?_, ?_⟩
    · rintro ⟨⟨_, weight⟩, hmem, rfl, hc⟩
      obtain ⟨hb, hweight⟩ := (atLeast_through hreached).mp hc
      exact ⟨hb, weight, hmem, hweight⟩
    · rintro ⟨hb, weight, hmem, hweight⟩
      exact ⟨_, hmem, rfl, (atLeast_through hreached).mpr ⟨hb, hweight⟩⟩

theorem le_closeMask_iff (minRingSize : ℕ) (dp : Table W) (best : W) (mask : ℕ) :
    c ≤ closeMask adjacency root span minRingSize dp best mask ↔ c ≤ best ∨
      (mask.testBit 0 = true ∧ minRingSize ≤ bitCount mask) ∧ ∃ v ∈ List.range' 1 (span - 1),
        (dp mask v).AtLeast c ∧ EdgeAtLeast adjacency c (root + v) root := by
  unfold closeMask
  split_ifs with hskip
  · refine (or_iff_left fun h => ?_).symm
    exact hskip.elim (fun hbit => hbit h.1.1) fun hlt => absurd h.1.2 (Nat.not_le_of_lt hlt)
  · rw [not_or, not_not, Nat.not_lt] at hskip
    rw [le_foldl_iff fun best v _ => le_closeNode_iff dp best v]
    exact or_congr_right (and_iff_right hskip).symm

theorem le_closeRoot_iff {n minRingSize : ℕ} (hroot : root < n)
    (hedges : ∀ u v, EdgeAtLeast adjacency c u v → v < n) (best : W) :
    c ≤ closeRoot adjacency n minRingSize best root ↔
      c ≤ best ∨ ∃ w p, ClosedPath adjacency c minRingSize root w p := by
  unfold closeRoot
  rw [le_foldl_iff fun best mask _ => le_closeMask_iff minRingSize _ best mask]
  refine or_congr_right ⟨?_, ?_⟩
  · rintro ⟨mask, -, ⟨-, hlong⟩, v, hv, htable, hclosing⟩
    obtain ⟨p, hp, rfl⟩ := sound_pathTable adjacency c root _ mask v htable
    rw [hp.length_eq_bitCount] at hlong
    have := (List.mem_range'_1.mp hv).1
    exact ⟨root + v, p, hp, by omega, hclosing, hlong⟩
  · rintro ⟨w, p, hp⟩
    have hspan : ∀ u ∈ w :: p, u < root + (n - root) := by
      intro u hu
      have := hp.path.lt_of_mem hroot hedges u hu
      omega
    have hw := hspan w List.mem_cons_self
    have hle := hp.path.root_le w List.mem_cons_self
    have hne := hp.leaves
    have hbit : (pathMask root (w :: p)).testBit 0 = true :=
      (testBit_pathMask 0).mpr ⟨root, hp.path.root_mem, Nat.sub_self root⟩
    have hpos : 1 ≤ pathMask root (w :: p) := by
      by_contra hzero
      rw [Nat.lt_one_iff.mp (not_le.mp hzero), Nat.zero_testBit] at hbit
      cases hbit
    have hlt := pathMask_lt hspan hp.path
    refine ⟨pathMask root (w :: p), ?_, ⟨hbit, ?_⟩, w - root, ?_, ?_, ?_⟩
    · rw [masks, List.mem_range'_1]
      omega
    · rw [hp.path.length_eq_bitCount]
      exact hp.long
    · rw [List.mem_range'_1]
      omega
    · exact pathTable_reaches hp.path hspan
    · rw [Nat.add_sub_cancel' hle]
      exact hp.closing

theorem mem_roots_iff {n minRingSize : ℕ} :
    root ∈ (List.range n).takeWhile (fun root => decide (minRingSize ≤ n - root)) ↔
      root < n ∧ minRingSize ≤ n - root := by
  constructor
  · intro h
    exact ⟨List.mem_range.mp ((List.takeWhile_prefix _).subset h),
      of_decide_eq_true (List.all_eq_true.mp List.all_takeWhile root h)⟩
  · rintro ⟨hroot, hlong⟩
    have hsplit : List.range n = List.range (root + 1) ++
        (List.range (n - (root + 1))).map (root + 1 + ·) := by
      rw [← List.range_add, Nat.add_sub_cancel' hroot]
    rw [hsplit, List.takeWhile_append_of_pos]
    · exact List.mem_append_left _ (List.mem_range.mpr (Nat.lt_succ_self root))
    · intro u hu
      have := List.mem_range.mp hu
      exact decide_eq_true (by omega)

theorem le_maxBottleneckCycle_iff_path [Zero W] {n minRingSize : ℕ}
    (hedges : ∀ u v, EdgeAtLeast adjacency c u v → v < n) :
    c ≤ maxBottleneckCycle adjacency n minRingSize ↔ c ≤ 0 ∨
      ∃ root, (root < n ∧ minRingSize ≤ n - root) ∧
        ∃ w p, ClosedPath adjacency c minRingSize root w p := by
  unfold maxBottleneckCycle
  rw [le_foldl_iff fun best root hroot =>
    le_closeRoot_iff (mem_roots_iff.mp hroot).1 hedges best]
  simp only [mem_roots_iff]

theorem SimplePath.isChain (h : SimplePath adjacency c root p) :
    p.reverse.IsChain (EdgeAtLeast adjacency c) := by
  induction h with
  | start => exact List.isChain_singleton _
  | @extend v w p _ hedge _ _ ih =>
    rw [List.reverse_cons, List.isChain_append]
    refine ⟨ih, List.isChain_singleton _, ?_⟩
    rintro x hx y hy
    rw [List.getLast?_reverse, List.head?_cons, Option.mem_some_iff] at hx
    rw [List.head?_cons, Option.mem_some_iff] at hy
    exact hx ▸ hy ▸ hedge

theorem SimplePath.reverse_eq (h : SimplePath adjacency c root p) :
    ∃ t, p.reverse = root :: t := by
  induction h with
  | start => exact ⟨[], rfl⟩
  | extend _ _ _ _ ih =>
    obtain ⟨t, ht⟩ := ih
    exact ⟨_, by rw [List.reverse_cons, ht, List.cons_append]⟩

theorem simplePath_of_isChain {t : List ℕ} (hnodup : (root :: t).Nodup)
    (hchain : (root :: t).IsChain (EdgeAtLeast adjacency c)) (hle : ∀ u ∈ t, root ≤ u) :
    SimplePath adjacency c root (root :: t).reverse := by
  induction t using List.reverseRecOn with
  | nil => exact .start
  | append_singleton t w ih =>
    rw [← List.cons_append] at hnodup hchain ⊢
    obtain ⟨hfront, -, hdisjoint⟩ := List.nodup_append.mp hnodup
    obtain ⟨hchain, -, hlast⟩ := List.isChain_append.mp hchain
    have hpath := ih hfront hchain fun u hu => hle u (List.mem_append_left _ hu)
    have hw := hle w (List.mem_append_right _ (List.mem_singleton_self w))
    rw [List.reverse_append, List.reverse_singleton, List.singleton_append]
    obtain ⟨v, q, hq⟩ := List.exists_cons_of_ne_nil
      (List.reverse_ne_nil_iff.mpr (List.cons_ne_nil root t))
    have hfresh : w ∉ (root :: t).reverse := fun hmem =>
      hdisjoint w (List.mem_reverse.mp hmem) w (List.mem_singleton_self w) rfl
    have hv : (root :: t).getLast? = some v := by
      rw [← List.head?_reverse, hq, List.head?_cons]
    rw [hq] at hpath hfresh ⊢
    exact hpath.extend (hlast v hv w rfl) hw hfresh

theorem ClosedPath.simpleCycle {minRingSize : ℕ}
    (h : ClosedPath adjacency c minRingSize root w p) :
    SimpleCycle (EdgeAtLeast adjacency c) (w :: p).reverse := by
  obtain ⟨t, ht⟩ := h.path.reverse_eq
  refine ⟨List.nodup_reverse.mpr h.path.nodup, ?_⟩
  rw [ht, Cycle.chain_coe_cons, ← List.cons_append, ← ht, List.isChain_append]
  refine ⟨h.path.isChain, List.isChain_singleton _, ?_⟩
  rintro x hx y hy
  rw [List.getLast?_reverse, List.head?_cons, Option.mem_some_iff] at hx
  rw [List.head?_cons, Option.mem_some_iff] at hy
  exact hx ▸ hy ▸ h.closing

theorem SimpleCycle.closedPath {l : List ℕ} {minRingSize : ℕ}
    (h : SimpleCycle (EdgeAtLeast adjacency c) l) (htwo : 2 ≤ l.length)
    (hlong : minRingSize ≤ l.length) :
    ∃ root w p, (w :: p).Perm l ∧ ClosedPath adjacency c minRingSize root w p := by
  obtain ⟨root, hroot, hle⟩ : ∃ root ∈ l, ∀ u ∈ l, root ≤ u := by
    have hne : l.toFinset.Nonempty := by
      rw [List.toFinset_nonempty_iff]
      rintro rfl
      exact absurd htwo (by decide)
    exact ⟨_, List.mem_toFinset.mp (l.toFinset.min'_mem hne),
      fun u hu => l.toFinset.min'_le u (List.mem_toFinset.mpr hu)⟩
  obtain ⟨t, hrotated, hcycle⟩ := h.rotate_to hroot
  have hchain := (Cycle.chain_coe_cons _ root t).mp hcycle.chain
  rw [← List.cons_append, List.isChain_append] at hchain
  have hpath := simplePath_of_isChain hcycle.nodup hchain.1
    fun u hu => hle u (hrotated.perm.mem_iff.mp (List.mem_cons_of_mem _ hu))
  obtain ⟨w, p, hp⟩ := List.exists_cons_of_ne_nil
    (List.reverse_ne_nil_iff.mpr (List.cons_ne_nil root t))
  have hlast : (root :: t).getLast? = some w := by
    rw [← List.head?_reverse, hp, List.head?_cons]
  have hwp : (w :: p).Perm l := hp ▸ (List.reverse_perm _).trans hrotated.perm
  refine ⟨root, w, p, hwp, hp ▸ hpath, ?_, hchain.2.2 w hlast root rfl, hwp.length_eq ▸ hlong⟩
  rintro rfl
  have hmem : w ∈ t := by
    have := hrotated.perm.length_eq
    cases t with
    | nil => simp at this; omega
    | cons a t =>
      rw [List.getLast?_cons_cons] at hlast
      exact List.mem_of_getLast? hlast
  exact (List.nodup_cons.mp hcycle.nodup).1 hmem

/-- The exact search reaches a positive threshold exactly where a long enough simple cycle does. -/
theorem le_maxBottleneckCycle_iff [Zero W] {n minRingSize : ℕ} (hc : 0 < c)
    (hedges : ∀ u v, EdgeAtLeast adjacency c u v → v < n) :
    c ≤ maxBottleneckCycle adjacency n minRingSize ↔
      ∃ l, SimpleCycle (EdgeAtLeast adjacency c) l ∧ 2 ≤ l.length ∧ minRingSize ≤ l.length := by
  rw [le_maxBottleneckCycle_iff_path hedges, or_iff_right (not_le.mpr hc)]
  constructor
  · rintro ⟨root, -, w, p, hp⟩
    refine ⟨_, hp.simpleCycle, ?_, by rw [List.length_reverse]; exact hp.long⟩
    have hroot : root ∈ p :=
      (List.mem_cons.mp hp.path.root_mem).resolve_left (Ne.symm hp.leaves)
    have := List.length_pos_of_mem hroot
    rw [List.length_reverse, List.length_cons]
    omega
  · rintro ⟨l, hl, htwo, hlong⟩
    obtain ⟨root, w, p, hperm, hp⟩ := SimpleCycle.closedPath hl htwo hlong
    have hroot := hedges _ _ hp.closing
    exact ⟨root, ⟨hroot, hp.long.trans (hp.path.length_le hroot hedges)⟩, w, p, hp⟩

end

end BottleneckCycle
