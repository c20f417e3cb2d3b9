import LedgerLens.IsoTimestamps
import LedgerLens.LexicographicOrder
import Mathlib.Data.String.Basic

/-!
# The order of ISO timestamps

The tables keep times as the texts of `isoformat`, and SQLite compares the texts. For timestamps
with one offset that is the order of the instants.
-/
namespace IsoTimestamps

open LexicographicOrder

/-- `datetime.now(timezone.utc)`. -/
abbrev Utc := { d : DateTime // d.offset = some 0 }

/-- `_days_before_year`. -/
def daysBeforeYear (year : ℕ) : ℕ :=
  (year - 1) * 365 + (year - 1) / 4 - (year - 1) / 100 + (year - 1) / 400

/-- `_days_before_month`. -/
def daysBeforeMonth (year month : ℕ) : ℕ :=
  ((List.range' 1 (month - 1)).map (daysInMonth year)).sum

def DateTime.toordinal (d : DateTime) : ℕ :=
  daysBeforeYear d.year + daysBeforeMonth d.year d.month + d.day

/-- The microseconds of the clock. -/
def DateTime.clock (d : DateTime) : ℕ :=
  ((d.hour * 60 + d.minute) * 60 + d.second) * 1000000 + d.microsecond

/-- In microseconds. A naive timestamp is read as UTC. -/
def DateTime.instant (d : DateTime) : ℤ :=
  ((d.toordinal * 86400000000 + d.clock : ℕ) : ℤ) - d.offset.getD 0

section

variable {d e : DateTime} {year month day : ℕ}

theorem isLeap_iff : isLeap year = true ↔ year % 4 = 0 ∧ (year % 100 ≠ 0 ∨ year % 400 = 0) := by
  simp [isLeap]

theorem succ_div_eq (n w : ℕ) : (n + 1) / w = n / w + if (n + 1) % w = 0 then 1 else 0 := by
  rw [Nat.succ_div, if_congr Nat.dvd_iff_mod_eq_zero rfl rfl]

theorem daysBeforeYear_succ (h : 1 ≤ year) :
    daysBeforeYear (year + 1) = daysBeforeYear year + if isLeap year then 366 else 365 := by
  obtain ⟨n, rfl⟩ := Nat.exists_eq_add_of_le' h
  have hcentury : (n + 1) % 400 = 0 → (n + 1) % 100 = 0 := by omega
  have hfour : (n + 1) % 100 = 0 → (n + 1) % 4 = 0 := by omega
  have hless : n / 100 ≤ n := Nat.div_le_self n 100
  simp only [daysBeforeYear, Nat.add_sub_cancel, isLeap_iff, succ_div_eq]
  generalize n / 4 = fours, n / 100 = hundreds, n / 400 = fourHundreds at *
  generalize (n + 1) % 4 = r₄, (n + 1) % 100 = r₁₀₀, (n + 1) % 400 = r₄₀₀ at *
  split_ifs <;> omega

theorem daysBeforeYear_mono : Monotone daysBeforeYear := by
  apply monotone_nat_of_le_succ
  intro year
  rcases Nat.eq_zero_or_pos year with rfl | hpos
  · exact Nat.zero_le _
  · rw [daysBeforeYear_succ hpos]
    exact Nat.le_add_right _ _

theorem daysBeforeMonth_succ (h : 1 ≤ month) :
    daysBeforeMonth year (month + 1) = daysBeforeMonth year month + daysInMonth year month := by
  obtain ⟨n, rfl⟩ := Nat.exists_eq_add_of_le' h
  simp only [daysBeforeMonth, Nat.add_sub_cancel]
  rw [List.range'_concat, List.map_append, List.sum_append, List.map_singleton,
    List.sum_singleton]
  congr 2
  ring

theorem daysBeforeMonth_mono (year : ℕ) : Monotone (daysBeforeMonth year) := by
  apply monotone_nat_of_le_succ
  intro month
  rcases Nat.eq_zero_or_pos month with rfl | hpos
  · exact Nat.zero_le _
  · rw [daysBeforeMonth_succ hpos]
    exact Nat.le_add_right _ _

theorem daysBeforeMonth_year (year : ℕ) :
    daysBeforeMonth year 13 = if isLeap year then 366 else 365 := by
  have hmonths : List.range' 1 (13 - 1) = [1, 2, 3, 4, 5, 6, 7, 8, 9, 10, 11, 12] := rfl
  rw [daysBeforeMonth, hmonths]
  cases hleap : isLeap year <;> simp [daysInMonth, hleap]

theorem toordinal_room (h : ValidDate year month day) :
    daysBeforeMonth year month + day < daysBeforeMonth year (month + 1) + 1 ∧
      daysBeforeYear year + (daysBeforeMonth year month + day) <
        daysBeforeYear (year + 1) + 1 := by
  obtain ⟨⟨hyear, -⟩, ⟨hmonth, hlast⟩, -, hday⟩ := h
  have hroom : daysBeforeMonth year month + day ≤ daysBeforeMonth year (month + 1) := by
    rw [daysBeforeMonth_succ hmonth]
    omega
  have hwhole := daysBeforeMonth_mono year (show month + 1 ≤ 13 by omega)
  rw [daysBeforeMonth_year] at hwhole
  rw [daysBeforeYear_succ hyear]
  omega

theorem day_room (h : ValidDate year month day) {clock : ℕ} (hclock : clock < 86400000000) :
    daysBeforeMonth year month * 86400000000 + ((day - 1) * 86400000000 + clock) <
        daysBeforeMonth year (month + 1) * 86400000000 ∧
      (daysBeforeYear year + 1) * 86400000000 +
          (daysBeforeMonth year month * 86400000000 + ((day - 1) * 86400000000 + clock)) <
        (daysBeforeYear (year + 1) + 1) * 86400000000 := by
  obtain ⟨hmonth, hyear⟩ := toordinal_room h
  have hday : 1 ≤ day := h.2.2.1
  omega

theorem clock_lt (d : DateTime) : d.clock < 86400000000 := by
  obtain ⟨hhour, hminute, hsecond, hmicrosecond⟩ := d.validClock
  unfold DateTime.clock
  omega

/-- The fields in the order in which both are compared. -/
def Before (d e : DateTime) : Prop :=
  d.year < e.year ∨ d.year = e.year ∧ (d.month < e.month ∨ d.month = e.month ∧
    (d.day < e.day ∨ d.day = e.day ∧ (d.hour < e.hour ∨ d.hour = e.hour ∧
      (d.minute < e.minute ∨ d.minute = e.minute ∧ (d.second < e.second ∨ d.second = e.second ∧
        d.microsecond < e.microsecond)))))

theorem clock_lt_iff : d.clock < e.clock ↔ d.hour < e.hour ∨ d.hour = e.hour ∧
    (d.minute < e.minute ∨ d.minute = e.minute ∧ (d.second < e.second ∨ d.second = e.second ∧
      d.microsecond < e.microsecond)) := by
  obtain ⟨hhour, hminute, hsecond, hmicrosecond⟩ := d.validClock
  obtain ⟨hhour', hminute', hsecond', hmicrosecond'⟩ := e.validClock
  unfold DateTime.clock
  rw [mul_add_lt_mul_add_iff hmicrosecond hmicrosecond', mul_add_lt_mul_add_iff hsecond hsecond',
    mul_add_lt_mul_add_iff hminute hminute']
  omega

theorem instant_lt_iff (hoffset : d.offset = e.offset) : d.instant < e.instant ↔ Before d e := by
  have hshape (d : DateTime) : d.toordinal * 86400000000 + d.clock =
      (daysBeforeYear d.year + 1) * 86400000000 + (daysBeforeMonth d.year d.month * 86400000000 +
        ((d.day - 1) * 86400000000 + d.clock)) := by
    have hday : 1 ≤ d.day := d.validDate.2.2.1
    unfold DateTime.toordinal
    omega
  have hyears : Monotone fun year => (daysBeforeYear year + 1) * 86400000000 := fun _ _ h =>
    Nat.mul_le_mul_right _ (Nat.succ_le_succ (daysBeforeYear_mono h))
  have hmonths (year : ℕ) : Monotone fun month => daysBeforeMonth year month * 86400000000 :=
    fun _ _ h => Nat.mul_le_mul_right _ (daysBeforeMonth_mono year h)
  have hd := day_room d.validDate (clock_lt d)
  have he := day_room e.validDate (clock_lt e)
  unfold DateTime.instant Before
  rw [hoffset, Int.sub_lt_sub_right_iff, Nat.cast_lt, hshape, hshape,
    add_lt_add_iff_of_room hyears hd.2 he.2]
  apply or_congr_right
  apply and_congr_right
  intro hyear
  rw [← hyear] at he ⊢
  rw [add_lt_add_iff_of_room (hmonths d.year) hd.1 he.1]
  apply or_congr_right
  apply and_congr_right
  intro hmonth
  rw [mul_add_lt_mul_add_iff (clock_lt d) (clock_lt e), clock_lt_iff]
  have hday : 1 ≤ d.day := d.validDate.2.2.1
  have hday' : 1 ≤ e.day := e.validDate.2.2.1
  rw [show d.day - 1 < e.day - 1 ↔ d.day < e.day by omega,
    show d.day - 1 = e.day - 1 ↔ d.day = e.day by omega]

theorem digitChar_lt_iff (m n : ℕ) :
    Nat.digitChar (m % 10) < Nat.digitChar (n % 10) ↔ m % 10 < n % 10 := by
  have table : ∀ x < 10, ∀ y < 10, Nat.digitChar x < Nat.digitChar y ↔ x < y := by decide
  exact table _ (Nat.mod_lt _ (by decide)) _ (Nat.mod_lt _ (by decide))

theorem pad_inj {w m n : ℕ} (hm : m < 10 ^ w) (hn : n < 10 ^ w) : pad w m = pad w n ↔ m = n := by
  refine ⟨fun h => ?_, fun h => h ▸ rfl⟩
  rw [← value_pad hm, h, value_pad hn]

theorem pad_lt_iff {w m n : ℕ} (hm : m < 10 ^ w) (hn : n < 10 ^ w) : pad w m < pad w n ↔ m < n := by
  induction w generalizing m n with
  | zero =>
    rw [pow_zero] at hm hn
    simp [pad]
    omega
  | succ w ih =>
    rw [pow_succ] at hm hn
    have hm' : m / 10 < 10 ^ w := by omega
    have hn' : n / 10 < 10 ^ w := by omega
    rw [pad, pad, append_lt_append_iff (by rw [length_pad, length_pad]), ih hm' hn',
      pad_inj hm' hn', List.cons_lt_cons_iff, digitChar_lt_iff]
    simp only [List.not_lt_nil, and_false, or_false]
    omega

theorem pad_append_lt_iff {w m n : ℕ} (hm : m < 10 ^ w) (hn : n < 10 ^ w) {s t : List Char} :
    pad w m ++ s < pad w n ++ t ↔ m < n ∨ m = n ∧ s < t := by
  rw [append_lt_append_iff (by rw [length_pad, length_pad]), pad_lt_iff hm hn, pad_inj hm hn]

theorem offsetText_lt (offset : Option ℤ) (s : List Char) : offsetText offset < '.' :: s := by
  cases offset with
  | none => exact List.nil_lt_cons _ _
  | some o =>
    unfold offsetText
    rw [List.cons_lt_cons_iff]
    left
    split_ifs <;> decide

theorem fractionText_lt_iff {m n : ℕ} (hm : m < 1000000) (hn : n < 1000000) (offset : Option ℤ) :
    fractionText m ++ offsetText offset < fractionText n ++ offsetText offset ↔ m < n := by
  have hlt := offsetText_lt offset
  unfold fractionText
  split_ifs with hm0 hn0 hn0
  · simp [hm0, hn0]
  · refine iff_of_true (hlt _) (by omega)
  · refine iff_of_false (not_lt.mpr (hlt _).le) (by omega)
  · rw [List.cons_append, List.cons_append, cons_lt_cons_left_iff, pad_append_lt_iff hm hn]
    simp

theorem lt_iff_before (hoffset : d.offset = e.offset) : d.isoformat < e.isoformat ↔ Before d e := by
  have hsmall (d : DateTime) : d.year < 10 ^ 4 ∧ d.month < 10 ^ 2 ∧ d.day < 10 ^ 2 := by
    obtain ⟨⟨-, hyear⟩, ⟨-, hmonth⟩, -, hday⟩ := d.validDate
    have := daysInMonth_le d.year d.month
    omega
  have hclock (d : DateTime) : d.hour < 10 ^ 2 ∧ d.minute < 10 ^ 2 ∧ d.second < 10 ^ 2 := by
    obtain ⟨hhour, hminute, hsecond, -⟩ := d.validClock
    omega
  obtain ⟨hyear, hmonth, hday⟩ := hsmall d
  obtain ⟨hyear', hmonth', hday'⟩ := hsmall e
  obtain ⟨hhour, hminute, hsecond⟩ := hclock d
  obtain ⟨hhour', hminute', hsecond'⟩ := hclock e
  unfold DateTime.isoformat clockText Before
  rw [String.lt_iff_toList_lt, String.toList_ofList, String.toList_ofList, hoffset]
  simp only [List.append_assoc, List.cons_append]
  rw [pad_append_lt_iff hyear hyear', cons_lt_cons_left_iff, pad_append_lt_iff hmonth hmonth',
    cons_lt_cons_left_iff, pad_append_lt_iff hday hday', cons_lt_cons_left_iff,
    pad_append_lt_iff hhour hhour', cons_lt_cons_left_iff, pad_append_lt_iff hminute hminute',
    cons_lt_cons_left_iff, pad_append_lt_iff hsecond hsecond',
    fractionText_lt_iff d.validClock.2.2.2 e.validClock.2.2.2]

end

theorem isoformat_lt_iff {d e : DateTime} (hoffset : d.offset = e.offset) :
    d.isoformat < e.isoformat ↔ d.instant < e.instant :=
  (lt_iff_before hoffset).trans (instant_lt_iff hoffset).symm

end IsoTimestamps
