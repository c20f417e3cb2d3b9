import Mathlib.Data.List.Basic
import Mathlib.Data.List.Lex
import Mathlib.Order.Monotone.Basic
import Mathlib.Tactic.Ring

/-!
# Lexicographic orders

Texts that begin with parts of one length are compared part by part, and so are the numbers that
count such parts as digits of any widths.
-/
namespace LexicographicOrder

section

variable {α : Type*} [LinearOrder α] {a b s t : List α}

theorem append_lt_append_iff (h : a.length = b.length) :
    a ++ s < b ++ t ↔ a < b ∨ a = b ∧ s < t := by
  induction a generalizing b with
  | nil =>
    obtain rfl := List.eq_nil_of_length_eq_zero h.symm
    simp
  | cons x a ih =>
    cases b with
    | nil => cases h
    | cons y b =>
      rw [List.cons_append, List.cons_append, List.cons_lt_cons_iff, List.cons_lt_cons_iff,
        ih (Nat.succ.inj h)]
      constructor
      · rintro (hlt | ⟨rfl, hlt | ⟨rfl, hlt⟩⟩)
        · exact .inl (.inl hlt)
        · exact .inl (.inr ⟨rfl, hlt⟩)
        · exact .inr ⟨rfl, hlt⟩
      · rintro ((hlt | ⟨rfl, hlt⟩) | ⟨heq, hlt⟩)
        · exact .inl hlt
        · exact .inr ⟨rfl, .inl hlt⟩
        · obtain ⟨rfl, rfl⟩ := List.cons.inj heq
          exact .inr ⟨rfl, .inr ⟨rfl, hlt⟩⟩

theorem append_lt_append_left_iff : a ++ s < a ++ t ↔ s < t := by
  rw [append_lt_append_iff rfl]
  exact ⟨fun h => h.elim (fun hlt => absurd hlt (lt_irrefl a)) And.right, fun h => .inr ⟨rfl, h⟩⟩

theorem cons_lt_cons_left_iff {x : α} : x :: s < x :: t ↔ s < t :=
  append_lt_append_left_iff (a := [x])

end

/-- Where the steps of `f` have room for the second parts, the sums are compared part by part. -/
theorem add_lt_add_iff_of_room {f : ℕ → ℕ} (hf : Monotone f) {m n x y : ℕ}
    (hx : f m + x < f (m + 1)) (hy : f n + y < f (n + 1)) :
    f m + x < f n + y ↔ m < n ∨ m = n ∧ x < y := by
  rcases lt_trichotomy m n with hlt | rfl | hgt
  · have := hf (show m + 1 ≤ n from hlt)
    exact ⟨fun _ => .inl hlt, fun _ => by omega⟩
  · constructor
    · exact fun h => .inr ⟨rfl, by omega⟩
    · rintro (hlt | ⟨-, hlt⟩)
      · exact absurd hlt (lt_irrefl m)
      · omega
  · have := hf (show n + 1 ≤ m from hgt)
    constructor
    · intro h
      omega
    · rintro (hlt | ⟨heq, -⟩) <;> omega

theorem mul_add_lt_mul_add_iff {m n x y width : ℕ} (hx : x < width) (hy : y < width) :
    m * width + x < n * width + y ↔ m < n ∨ m = n ∧ x < y := by
  apply add_lt_add_iff_of_room (f := fun k => k * width)
  · exact fun _ _ h => Nat.mul_le_mul_right width h
  · rw [Nat.add_mul]
    omega
  · rw [Nat.add_mul]
    omega

end LexicographicOrder
