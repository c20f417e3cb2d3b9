import Mathlib.Order.Defs.LinearOrder
import Mathlib.Data.Set.Insert

/-!
# A value with a fallback copy

A value is kept in a primary copy, and in a fallback copy while the primary one cannot be reached.
Readers take the newer copy and write it back. Both copies stay coherent with the value that was
last written as long as nothing is deleted in one copy while the other one holds a value.
-/
namespace FallbackCopies

variable {V ι : Type*}

inductive Op (V : Type*) where
  | set (v : V)
  | get
  | delete
  deriving DecidableEq

structure Copies (V : Type*) where
  primary : Option V
  fallback : Option V
  deriving DecidableEq

namespace Copies

section Steps

variable [LT ι] [DecidableLT ι] (rank : V → ι)

def newer (c : Copies V) : Option V :=
  match c.fallback, c.primary with
  | none, _ => none
  | some v, none => some v
  | some v, some w => if rank w < rank v then some v else none

/-- What an operation leaves, whether or not the primary copy serves it. -/
def step (served : Bool) (c : Copies V) : Op V → Copies V
  | .set v => if served then ⟨some v, none⟩ else { c with fallback := some v }
  | .get =>
    if served then
      match c.newer rank with
      | some v => ⟨some v, none⟩
      | none => c
    else c
  | .delete => if served then { c with primary := none } else { c with fallback := none }

theorem fallback_eq_none {c : Copies V} (hnewer : c.newer rank = none)
    (hprimary : c.primary = none) : c.fallback = none := by
  obtain ⟨primary, fallback⟩ := c
  obtain rfl : primary = none := hprimary
  cases fallback with
  | none => rfl
  | some v => cases hnewer

theorem fallback_of_newer {c : Copies V} {v : V} (h : c.newer rank = some v) :
    c.fallback = some v := by
  obtain ⟨primary, fallback⟩ := c
  cases fallback with
  | none => cases h
  | some w =>
    cases primary with
    | none => exact h
    | some u => exact (Option.ite_none_right_eq_some.mp h).2

def read (served : Bool) (c : Copies V) : Option V :=
  if served then (c.newer rank).or c.primary else c.fallback

theorem fallback_step {served : Bool} {c : Copies V} {op : Op V} {v : V}
    (h : (c.step rank served op).fallback = some v) : c.fallback = some v ∨ op = .set v := by
  cases op with
  | set w =>
    rw [step] at h
    split at h
    · cases h
    · exact .inr (congrArg Op.set (Option.some.inj h))
  | get =>
    rw [step] at h
    split at h
    · cases hnewer : c.newer rank with
      | none => exact .inl (by rw [hnewer] at h; exact h)
      | some w => rw [hnewer] at h; cases h
    · exact .inl h
  | delete =>
    rw [step] at h
    split at h
    · exact .inl h
    · cases h

end Steps

end Copies

/-- The value that was written last and not deleted since. -/
def after (latest : Option V) : Op V → Option V
  | .set v => some v
  | .get => latest
  | .delete => none

/-- A deletion finds no value in the copy that does not serve it. -/
def Clean (served : Bool) (c : Copies V) (op : Op V) : Prop :=
  op = .delete → if served then c.fallback = none else c.primary = none

variable [LinearOrder ι] {rank : V → ι} {written : Set V} {latest : Option V} {c : Copies V}

/-- A fallback copy is the latest value and newer than the primary one, which else is the latest
value itself. -/
structure Coherent (rank : V → ι) (written : Set V) (latest : Option V) (c : Copies V) : Prop where
  primary_written : ∀ v, c.primary = some v → v ∈ written
  fallback_latest : ∀ v, c.fallback = some v → latest = some v
  fallback_newer : ∀ v w, c.fallback = some v → c.primary = some w → rank w < rank v
  primary_latest : c.fallback = none → c.primary = latest

theorem Coherent.newer (h : Coherent rank written latest c) : c.newer rank = c.fallback := by
  rw [Copies.newer]
  cases hfallback : c.fallback with
  | none => rfl
  | some v =>
    cases hprimary : c.primary with
    | none => rfl
    | some w => exact if_pos (h.fallback_newer v w hfallback hprimary)

theorem Coherent.read (h : Coherent rank written latest c) (served : Bool) :
    c.read rank served = none ∨ c.read rank served = latest := by
  rw [Copies.read, h.newer]
  cases hfallback : c.fallback with
  | none =>
    rw [Option.none_or, h.primary_latest hfallback]
    split
    · exact .inr rfl
    · exact .inl rfl
  | some v =>
    rw [Option.some_or, ite_self, h.fallback_latest v hfallback]
    exact .inr rfl

theorem coherent_single {v : V} (hv : v ∈ written) :
    Coherent rank written (some v) ⟨some v, none⟩ where
  primary_written w hw := Option.some.inj hw ▸ hv
  fallback_latest _ h := by cases h
  fallback_newer _ _ h := by cases h
  primary_latest _ := rfl

theorem Coherent.mono (h : Coherent rank written latest c) {written' : Set V}
    (hsub : written ⊆ written') : Coherent rank written' latest c :=
  { h with primary_written := fun v hv => hsub (h.primary_written v hv) }

theorem Coherent.set (h : Coherent rank written latest c) {v : V}
    (hnewer : ∀ w ∈ written, rank w < rank v) (served : Bool) :
    Coherent rank (insert v written) (some v) (c.step rank served (.set v)) := by
  rw [Copies.step]
  split
  · exact coherent_single (Set.mem_insert v written)
  · exact
      { primary_written := fun w hw => Set.mem_insert_of_mem v (h.primary_written w hw)
        fallback_latest := fun w hw => hw
        fallback_newer := fun w u hw hu => by
          obtain rfl : v = w := Option.some.inj hw
          exact hnewer u (h.primary_written u hu)
        primary_latest := fun hnone => by cases hnone }

theorem Coherent.get (h : Coherent rank written latest c) (served : Bool)
    (hlatest : ∀ v, latest = some v → v ∈ written) :
    Coherent rank written latest (c.step rank served .get) := by
  rw [Copies.step]
  split
  · rw [h.newer]
    cases hfallback : c.fallback with
    | none => exact h
    | some v =>
      rw [h.fallback_latest v hfallback]
      exact coherent_single (hlatest v (h.fallback_latest v hfallback))
  · exact h

theorem coherent_delete {served : Bool} (hclean : Clean served c .delete) :
    Coherent rank written none (c.step rank served .delete) := by
  have hnone := hclean rfl
  have hempty : c.step rank served .delete = ⟨none, none⟩ := by
    rw [Copies.step]
    split
    · next hserved =>
      rw [if_pos hserved] at hnone
      rw [hnone]
    · next hserved =>
      rw [if_neg hserved] at hnone
      rw [hnone]
  rw [hempty]
  exact
    { primary_written := fun _ hv => by cases hv
      fallback_latest := fun _ hv => by cases hv
      fallback_newer := fun _ _ hv => by cases hv
      primary_latest := fun _ => rfl }

theorem exists_read_of_not_clean {served : Bool} (h : ¬ Clean served c .delete) :
    (c.step rank served .delete).read rank (!served) ≠ none := by
  rw [Clean, Classical.not_imp] at h
  cases served with
  | true => simpa [Copies.step, Copies.read] using h.2
  | false => simpa [Copies.step, Copies.read, Copies.newer] using h.2

end FallbackCopies
