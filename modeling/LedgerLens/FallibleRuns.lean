import Mathlib.Data.List.Forall2
import Mathlib.Data.List.Induction

/-!
# Runs that may fail

Inversion rules for computations in `Except`: a sequence succeeds exactly when its
parts do, and a traversal succeeds exactly when every element does. Loops with no bound on their
passes have an outcome where they end, and a pass that raises leads nowhere.
-/
namespace FallibleRuns

universe u

variable {ε α : Type*} {β : Type u}

theorem bind_eq_ok {α : Type u} {x : Except ε α} {f : α → Except ε β} {b : β} :
    (x >>= f) = .ok b ↔ ∃ a, x = .ok a ∧ f a = .ok b := by
  cases x with
  | error e => simp [bind, Except.bind]
  | ok a => simp [bind, Except.bind]

@[simp] theorem pure_eq_ok {a b : α} : (pure a : Except ε α) = .ok b ↔ a = b := by
  simp [pure, Except.pure]

@[simp] theorem throw_not_ok {e : ε} {b : α} : (throw e : Except ε α) ≠ .ok b :=
  nofun

theorem guard_eq_ok {p : Prop} [Decidable p] {e : ε} {x : Except ε α} {b : α} :
    (if p then throw e else x) = .ok b ↔ ¬ p ∧ x = .ok b := by
  by_cases hp : p <;> simp [hp]

theorem mapM_eq_ok {f : α → Except ε β} {l : List α} {out : List β} :
    l.mapM f = .ok out ↔ List.Forall₂ (fun a b => f a = .ok b) l out := by
  induction l generalizing out with
  | nil => simp
  | cons a l ih =>
    rw [List.mapM_cons, bind_eq_ok, List.forall₂_cons_left_iff]
    constructor
    · rintro ⟨b, hb, hrest⟩
      obtain ⟨bs, hbs, hout⟩ := bind_eq_ok.mp hrest
      exact ⟨b, bs, hb, ih.mp hbs, (pure_eq_ok.mp hout).symm⟩
    · rintro ⟨b, bs, hb, hbs, rfl⟩
      exact ⟨b, hb, bind_eq_ok.mpr ⟨bs, ih.mpr hbs, rfl⟩⟩

theorem mapM_eq_some {f : α → Option β} {l : List α} {out : List β} :
    l.mapM f = some out ↔ List.Forall₂ (fun a b => f a = some b) l out := by
  induction l generalizing out with
  | nil => simp
  | cons a l ih =>
    rw [List.mapM_cons, Option.bind_eq_bind, Option.bind_eq_some_iff,
      List.forall₂_cons_left_iff]
    constructor
    · rintro ⟨b, hb, hrest⟩
      obtain ⟨bs, hbs, hout⟩ := Option.bind_eq_some_iff.mp hrest
      exact ⟨b, bs, hb, ih.mp hbs, (Option.some.inj hout).symm⟩
    · rintro ⟨b, bs, hb, hbs, rfl⟩
      exact ⟨b, hb, Option.bind_eq_some_iff.mpr ⟨bs, ih.mpr hbs, rfl⟩⟩

theorem length_of_mapM {f : α → Except ε β} {l : List α} {out : List β}
    (h : l.mapM f = .ok out) : out.length = l.length :=
  (mapM_eq_ok.mp h).length_eq.symm

theorem getElem_of_mapM {f : α → Except ε β} {l : List α} {out : List β}
    (h : l.mapM f = .ok out) (i : ℕ) (hi : i < l.length) (ho : i < out.length) :
    f l[i] = .ok out[i] :=
  (mapM_eq_ok.mp h).get hi ho

theorem mem_of_mapM {f : α → Except ε β} {l : List α} {out : List β} (h : l.mapM f = .ok out)
    {b : β} (hb : b ∈ out) : ∃ a ∈ l, f a = .ok b := by
  obtain ⟨i, hi, rfl⟩ := List.getElem_of_mem hb
  have hl : i < l.length := length_of_mapM h ▸ hi
  exact ⟨l[i], List.getElem_mem hl, getElem_of_mapM h i hl hi⟩

theorem mapM_succeeds {f : α → Except ε β} {l : List α} (h : ∀ a ∈ l, ∃ b, f a = .ok b) :
    ∃ out, l.mapM f = .ok out := by
  simp only [mapM_eq_ok]
  induction l with
  | nil => exact ⟨[], .nil⟩
  | cons a l ih =>
    obtain ⟨b, hb⟩ := h a List.mem_cons_self
    obtain ⟨bs, hbs⟩ := ih fun x hx => h x (List.mem_cons_of_mem a hx)
    exact ⟨b :: bs, .cons hb hbs⟩

theorem foldlM_invariant {f : β → α → Except ε β} {P : List α → β → Prop} {b : β}
    (start : P [] b)
    (step : ∀ seen a c d, P seen c → f c a = .ok d → P (seen ++ [a]) d) {l : List α} {out : β}
    (h : l.foldlM f b = .ok out) : P l out := by
  induction l using List.reverseRecOn generalizing out with
  | nil =>
    obtain rfl := pure_eq_ok.mp h
    exact start
  | append_singleton l a ih =>
    rw [List.foldlM_append] at h
    obtain ⟨c, hc, hstep⟩ := bind_eq_ok.mp h
    rw [List.foldlM_cons] at hstep
    obtain ⟨d, hd, hout⟩ := bind_eq_ok.mp hstep
    obtain rfl := pure_eq_ok.mp hout
    exact step l a c d (ih hc) hd

theorem foldlM_succeeds {f : β → α → Except ε β} {P : List α → β → Prop}
    (step : ∀ a rest c, P (a :: rest) c → ∃ d, f c a = .ok d ∧ P rest d) {l : List α} {b : β}
    (start : P l b) : ∃ out, l.foldlM f b = .ok out ∧ P [] out := by
  induction l generalizing b with
  | nil => exact ⟨b, rfl, start⟩
  | cons a l ih =>
    obtain ⟨c, hstep, hc⟩ := step a l b start
    obtain ⟨out, hrun, hout⟩ := ih hc
    exact ⟨out, bind_eq_ok.mpr ⟨c, hstep, hrun⟩, hout⟩

end FallibleRuns

namespace WhileLoops

variable {State : Type*} {Guard : State → Prop} {Pass : State → State → Prop} {s t u : State}

inductive While (Guard : State → Prop) (Pass : State → State → Prop) : State → State → Prop where
  | stop {s : State} : ¬ Guard s → While Guard Pass s s
  | pass {s t u : State} : Guard s → Pass s t → While Guard Pass t u → While Guard Pass s u

theorem While.unique (hpass : ∀ s t t', Pass s t → Pass s t' → t = t')
    (h : While Guard Pass s t) (h' : While Guard Pass s u) : t = u := by
  induction h with
  | stop hstop =>
    cases h' with
    | stop => rfl
    | pass hguard => exact absurd hguard hstop
  | pass hguard hstep _ ih =>
    cases h' with
    | stop hstop => exact absurd hguard hstop
    | pass _ hstep' hrest => exact ih (hpass _ _ _ hstep hstep' ▸ hrest)

end WhileLoops
