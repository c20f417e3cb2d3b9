import LedgerLens.SortedSums
import Mathlib.Algebra.BigOperators.Group.Finset.Basic
import Mathlib.Algebra.Order.BigOperators.Ring.Finset
import Mathlib.Algebra.Order.Field.Basic
import Mathlib.Data.Fin.VecNotation
import Mathlib.Data.Fintype.Card
import Mathlib.Data.List.FinRange
import Mathlib.Tactic.Linarith

/-!
# Krum selection

`detection/federated/krum.py` and its use in `detection/federated/server.py`, over any ordered
field. The scores of the honest updates bound those of all that are selected, and so few updates
are left out of a score that an honest one is among those it sums.
-/
namespace Krum

open SortedSums

variable {K : Type*} [Field K] [LinearOrder K] {n d : ℕ}

inductive KrumError where
  | tooManyByzantine (f n : ℕ)
  | tooManySelected (m : ℕ) (bound : ℤ)
  deriving DecidableEq

def sqDist (g h : Fin d → K) : K := ∑ k, (g k - h k) ^ 2

def distRow (gradients : Fin n → Fin d → K) (i : Fin n) : List K :=
  (List.finRange n).map fun j => sqDist (gradients i) (gradients j)

/-- `row[1 : neighbours + 1].sum()` of the sorted row. -/
def krumScore (gradients : Fin n → Fin d → K) (neighbours : ℕ) (i : Fin n) : K :=
  (((sorted (distRow gradients i)).drop 1).take neighbours).sum

def krumScores (f : ℕ) (gradients : Fin n → Fin d → K) : Except KrumError (Fin n → K) :=
  if n ≤ 2 * f + 2 then .error (.tooManyByzantine f n)
  else .ok (krumScore gradients (n - f - 2))

/-- `np.argsort`, which may order ties either way. -/
structure Argsort (K : Type*) [LinearOrder K] where
  ranked : ∀ {n : ℕ}, (Fin n → K) → List (Fin n)
  perm : ∀ {n : ℕ} (scores : Fin n → K), (ranked scores).Perm (List.finRange n)
  pairwise : ∀ {n : ℕ} (scores : Fin n → K),
    (ranked scores).Pairwise fun i j => scores i ≤ scores j

structure Selection (K : Type*) (n : ℕ) where
  selected : List (Fin n)
  excluded : List (Fin n)
  scores : Fin n → K

def select (argsort : Argsort K) (f : ℕ) (gradients : Fin n → Fin d → K) (m : ℕ) :
    Except KrumError (Selection K n) :=
  if n < m + f then .error (.tooManySelected m (n - f))
  else do
    let scores ← krumScores f gradients
    let ranked := argsort.ranked scores
    return ⟨ranked.take m, ranked.drop m, scores⟩

/-- `while f > 0 and 2 * f + 2 >= n: f -= 1`. -/
def lowerTolerance (n : ℕ) : ℕ → ℕ
  | 0 => 0
  | f + 1 => if n ≤ 2 * (f + 1) + 2 then lowerTolerance n f else f + 1

def serverTolerance (n : ℕ) : ℕ := lowerTolerance n (n / 3)

/-- The indices of the updates that are kept and of those that are left out. -/
def selectKrumSurvivors (argsort : Argsort K) (useKrum : Bool) (deltas : Fin n → Fin d → K) :
    Except KrumError (List (Fin n) × List (Fin n)) :=
  if ¬ useKrum then .ok (List.finRange n, [])
  else if n < 3 then .ok (List.finRange n, [])
  else
    let f := serverTolerance n
    if n ≤ 2 * f + 2 then .ok (List.finRange n, [])
    else
      (select argsort f deltas (n - f)).map fun selection =>
        (selection.selected, selection.excluded)

/-- The tolerance that is derived for three updates or more leaves Krum applicable. -/
theorem serverTolerance_lt (h : 3 ≤ n) : 2 * serverTolerance n + 2 < n := by
  have hlower (f : ℕ) : 2 * lowerTolerance n f + 2 < n := by
    induction f with
    | zero =>
      rw [lowerTolerance]
      omega
    | succ f ih =>
      rw [lowerTolerance]
      by_cases hn : n ≤ 2 * (f + 1) + 2
      · rw [if_pos hn]
        exact ih
      · rw [if_neg hn]
        omega
  exact hlower (n / 3)

section

variable {gradients : Fin n → Fin d → K} {honest : Finset (Fin n)} {f m : ℕ} {D : K} {i : Fin n}

omit [LinearOrder K] in
theorem sqDist_self (g : Fin d → K) : sqDist g g = 0 := by simp [sqDist]

theorem length_row (gradients : Fin n → Fin d → K) (i : Fin n) :
    (sorted (distRow gradients i)).length = n := by
  rw [length_sorted, distRow, List.length_map, List.length_finRange]

theorem card_le_countP {x : K}
    (hfar : ∀ j ∈ honest, x < sqDist (gradients i) (gradients j)) :
    honest.card ≤ (sorted (distRow gradients i)).countP (fun y => x < y) := by
  rw [(sorted_perm _).countP_eq, distRow, List.countP_map, List.countP_eq_length_filter]
  refine (Finset.card_le_card fun j hj => ?_).trans (List.toFinset_card_le _)
  rw [List.mem_toFinset, List.mem_filter]
  exact ⟨List.mem_finRange j, decide_eq_true (hfar j hj)⟩

omit [Field K] in
theorem selected_score_le {score : Fin n → K} {ranked : List (Fin n)} {bound : K}
    (hperm : ranked.Perm (List.finRange n))
    (hpairwise : ranked.Pairwise fun i j => score i ≤ score j)
    (hm : m ≤ honest.card) (hbound : ∀ j ∈ honest, score j ≤ bound) (hi : i ∈ ranked.take m) :
    score i ≤ bound := by
  by_contra hlarge
  obtain ⟨p, hp, rfl⟩ := List.getElem_of_mem hi
  rw [List.length_take] at hp
  rw [List.getElem_take] at hlarge
  have hbefore : honest ⊆ (ranked.take p).toFinset := by
    intro j hj
    obtain ⟨q, hq, rfl⟩ := List.getElem_of_mem (hperm.mem_iff.mpr (List.mem_finRange j))
    rw [List.mem_toFinset]
    by_cases hpq : q < p
    · exact List.mem_take_iff_getElem.mpr ⟨q, by omega, rfl⟩
    · exfalso
      apply hlarge
      rcases Nat.lt_or_ge p q with hlt | hge
      · exact (List.pairwise_iff_getElem.mp hpairwise p q (by omega) hq hlt).trans (hbound _ hj)
      · have hsame : q = p := by omega
        subst hsame
        exact hbound _ hj
  have hcard := (Finset.card_le_card hbefore).trans (List.toFinset_card_le _)
  rw [List.length_take] at hcard
  omega

theorem select_eq_ok (argsort : Argsort K) (hf : 2 * f + 2 < n) (hm : m ≤ n - f) :
    select argsort f gradients m = .ok
      ⟨(argsort.ranked (krumScore gradients (n - f - 2))).take m,
        (argsort.ranked (krumScore gradients (n - f - 2))).drop m,
        krumScore gradients (n - f - 2)⟩ := by
  have hfits : ¬ n < m + f := by omega
  have happlies : ¬ n ≤ 2 * f + 2 := by omega
  rw [select, if_neg hfits, krumScores, if_neg happlies]
  rfl

theorem selectKrumSurvivors_succeeds (argsort : Argsort K) (useKrum : Bool) :
    ∃ survivors excluded, selectKrumSurvivors argsort useKrum gradients =
      .ok (survivors, excluded) := by
  unfold selectKrumSurvivors
  by_cases huse : useKrum
  · rw [if_neg (not_not.mpr huse)]
    by_cases hn : n < 3
    · exact ⟨List.finRange n, [], if_pos hn⟩
    · have hf : 2 * serverTolerance n + 2 < n := serverTolerance_lt (by omega)
      simp only [if_neg hn, if_neg (not_le.mpr hf), select_eq_ok argsort hf le_rfl]
      exact ⟨_, _, rfl⟩
  · exact ⟨List.finRange n, [], if_pos huse⟩

section

variable [IsStrictOrderedRing K]

theorem sqDist_nonneg (g h : Fin d → K) : 0 ≤ sqDist g h :=
  Finset.sum_nonneg fun k _ => sq_nonneg (g k - h k)

theorem row_nonneg {x : K} (hx : x ∈ sorted (distRow gradients i)) : 0 ≤ x := by
  obtain ⟨j, -, rfl⟩ := List.mem_map.mp ((sorted_perm _).mem_iff.mp hx)
  exact sqDist_nonneg _ _

/-- An honest update is close to enough others to have a small score. -/
theorem honest_score_le (hf : 2 * f + 2 < n) (hhonest : n - f ≤ honest.card)
    (hclose : ∀ i ∈ honest, ∀ j ∈ honest, sqDist (gradients i) (gradients j) ≤ D)
    (hi : i ∈ honest) : krumScore gradients (n - f - 2) i ≤ (n - f - 2 : ℕ) * D := by
  have hothers : n - f - 2 ≤ (honest.erase i).card := by
    rw [Finset.card_erase_of_mem hi]
    omega
  obtain ⟨near, hnear, hcard⟩ := Finset.exists_subset_card_eq hothers
  have hself : i ∉ near := fun hmem => Finset.notMem_erase i honest (hnear hmem)
  have hsub : ((i :: near.toList).map fun j => sqDist (gradients i) (gradients j)).Subperm
      (distRow gradients i) := by
    have hnodup : (i :: near.toList).Nodup :=
      List.nodup_cons.mpr ⟨fun h => hself (Finset.mem_toList.mp h), near.nodup_toList⟩
    obtain ⟨l, hperm, hl⟩ := List.subperm_of_subset hnodup fun j _ => List.mem_finRange j
    exact ⟨l.map _, hperm.map _, hl.map _⟩
  have hsum := sum_take_sorted_le hsub
  have hnearby : (near.toList.map fun j => sqDist (gradients i) (gradients j)).sum ≤
      (n - f - 2 : ℕ) * D := by
    rw [Finset.sum_map_toList, ← hcard, ← nsmul_eq_mul]
    exact Finset.sum_le_card_nsmul _ _ _ fun j hj =>
      hclose i hi j (Finset.mem_of_mem_erase (hnear hj))
  -- The row starts with a distance that is not negative, the update's own.
  cases hrow : sorted (distRow gradients i) with
  | nil =>
    have hlength := length_row gradients i
    rw [hrow, List.length_nil] at hlength
    omega
  | cons first row =>
    have hfirst : 0 ≤ first := row_nonneg (hrow ▸ List.mem_cons_self)
    rw [List.map_cons, List.sum_cons, sqDist_self, zero_add, List.length_cons, List.length_map,
      Finset.length_toList, hcard, hrow, List.take_succ_cons, List.sum_cons] at hsum
    rw [krumScore, hrow, List.drop_one, List.tail_cons]
    linarith

/-- A score sums too many distances for all of them to be smaller than the honest ones. -/
theorem exists_honest_near (hf : 2 * f + 2 < n) (hhonest : n - f ≤ honest.card) (i : Fin n) :
    ∃ j ∈ honest, sqDist (gradients i) (gradients j) ≤ krumScore gradients (n - f - 2) i := by
  have hlast : n - f - 2 < (sorted (distRow gradients i)).length := by
    rw [length_row]
    omega
  have hle : (sorted (distRow gradients i))[n - f - 2] ≤ krumScore gradients (n - f - 2) i := by
    apply List.single_le_sum
    · intro x hx
      exact row_nonneg (List.mem_of_mem_drop (List.mem_of_mem_take hx))
    · rw [List.mem_take_iff_getElem]
      refine ⟨n - f - 2 - 1, ?_, ?_⟩
      · rw [List.length_drop]
        omega
      · rw [List.getElem_drop]
        congr 1
        omega
  by_contra hfar
  have hfar : ∀ j ∈ honest, (sorted (distRow gradients i))[n - f - 2] <
      sqDist (gradients i) (gradients j) := by
    intro j hj
    by_contra hnear
    exact hfar ⟨j, hj, (not_lt.mp hnear).trans hle⟩
  have hcount := card_le_countP hfar
  have hafter := countP_lt_getElem_le (sorted_pairwise (distRow gradients i)) hlast
  rw [length_row] at hafter
  omega

end

end

theorem krum_resilience [IsStrictOrderedRing K] (argsort : Argsort K) :
    (∀ {n d : ℕ} (f m : ℕ) (gradients : Fin n → Fin d → K) (honest : Finset (Fin n)) (D : K),
      2 * f + 2 < n → n - f ≤ honest.card →
      (∀ i ∈ honest, ∀ j ∈ honest, sqDist (gradients i) (gradients j) ≤ D) → m ≤ n - f →
      ∃ selection, select argsort f gradients m = .ok selection ∧
        selection.selected.length = m ∧ ∀ i ∈ selection.selected,
          selection.scores i ≤ (n - f - 2 : ℕ) * D ∧
          ∃ j ∈ honest, sqDist (gradients i) (gradients j) ≤ (n - f - 2 : ℕ) * D) ∧
    ∀ n, 3 ≤ n → 2 * serverTolerance n + 2 < n := by
  refine ⟨fun {n d} f m gradients honest D hf hhonest hclose hm => ?_,
    fun n hn => serverTolerance_lt hn⟩
  refine ⟨_, select_eq_ok argsort hf hm, ?_, fun i hi => ?_⟩
  · rw [List.length_take, (argsort.perm _).length_eq, List.length_finRange]
    omega
  · have hscore : krumScore gradients (n - f - 2) i ≤ (n - f - 2 : ℕ) * D :=
      selected_score_le (argsort.perm _) (argsort.pairwise _) (hm.trans hhonest)
        (fun j hj => honest_score_le hf hhonest hclose hj) hi
    obtain ⟨j, hj, hnear⟩ : ∃ j ∈ honest, sqDist (gradients i) (gradients j) ≤
        krumScore gradients (n - f - 2) i := exists_honest_near hf hhonest i
    exact ⟨hscore, j, hj, hnear.trans hscore⟩

def stableArgsort (K : Type*) [LinearOrder K] : Argsort K where
  ranked scores := (List.finRange _).insertionSort fun i j => scores i ≤ scores j
  perm _ := List.perm_insertionSort _ _
  pairwise scores :=
    haveI : Std.Total fun i j => scores i ≤ scores j := ⟨fun _ _ => le_total _ _⟩
    haveI : IsTrans _ fun i j => scores i ≤ scores j := ⟨fun _ _ _ => le_trans⟩
    List.pairwise_insertionSort _ _

/-- Four updates close to each other, and one far away. -/
def fiveUpdates : Fin 5 → Fin 1 → ℚ := ![![0], ![1], ![0], ![1], ![100]]

theorem krum_resilience_five :
    ∃ selection, select (stableArgsort ℚ) 1 fiveUpdates 4 = .ok selection ∧
      selection.selected.length = 4 ∧ (∀ i ∈ selection.selected,
        selection.scores i ≤ (5 - 1 - 2 : ℕ) * (1 : ℚ) ∧ ∃ j ∈ ({0, 1, 2, 3} : Finset (Fin 5)),
          sqDist (fiveUpdates i) (fiveUpdates j) ≤ (5 - 1 - 2 : ℕ) * (1 : ℚ)) ∧
      2 * serverTolerance 5 + 2 < 5 := by
  obtain ⟨hselect, hserver⟩ := krum_resilience (stableArgsort ℚ)
  obtain ⟨selection, hok, hlength, hnear⟩ := hselect 1 4 fiveUpdates {0, 1, 2, 3} 1 (by decide)
    (by decide) (by decide +kernel) (by decide)
  exact ⟨selection, hok, hlength, hnear, hserver 5 (by decide)⟩

end Krum
