import LedgerLens.IsoOrder

/-!
# Days and months of UTC

The day and the month of a timestamp, and the timestamps at which the next ones begin.
-/
namespace IsoTimestamps

structure Date where
  year : ℕ
  month : ℕ
  day : ℕ
  deriving DecidableEq

def Date.Valid (x : Date) : Prop := ValidDate x.year x.month x.day

instance (x : Date) : Decidable x.Valid := inferInstanceAs (Decidable (ValidDate _ _ _))

/-- A day later. -/
def Date.tomorrow (x : Date) : Date :=
  if x.day < daysInMonth x.year x.month then { x with day := x.day + 1 }
  else if x.month < 12 then ⟨x.year, x.month + 1, 1⟩
  else ⟨x.year + 1, 1, 1⟩

def Date.plus (days : ℕ) (x : Date) : Date := Date.tomorrow^[days] x

def DateTime.date (d : DateTime) : Date := ⟨d.year, d.month, d.day⟩

theorem DateTime.date_valid (d : DateTime) : d.date.Valid := d.validDate

def midnight? (x : Date) : Option Utc :=
  if h : x.Valid then
    some ⟨⟨x.year, x.month, x.day, 0, 0, 0, 0, some 0, h, by decide, validOffset_utc⟩, rfl⟩
  else none

/-- `replace(hour=0, ...) + timedelta(days=1)`. -/
def nextMidnight (d : Utc) : Option Utc := midnight? (d.1.date.plus 1)

/-- `replace(day=1, hour=0, ...) + timedelta(days=32)`, and `replace(day=1)`. -/
def nextMonth (d : Utc) : Option Utc :=
  (midnight? (Date.plus 32 { d.1.date with day := 1 })).bind fun x =>
    midnight? { x.1.date with day := 1 }

section

variable {x y : Date} {d e : Utc} {days : ℕ}

theorem daysInMonth_ge (year month : ℕ) : 28 ≤ daysInMonth year month := by
  unfold daysInMonth
  split_ifs <;> decide

theorem Date.plus_of_le (h : x.day + days ≤ daysInMonth x.year x.month) :
    x.plus days = { x with day := x.day + days } := by
  induction days generalizing x with
  | zero => rfl
  | succ days ih =>
    have hstep : x.tomorrow = { x with day := x.day + 1 } := if_pos (by omega)
    rw [plus, Function.iterate_succ_apply, hstep]
    calc Date.plus days { x with day := x.day + 1 }
        = { x with day := x.day + 1 + days } := ih (by dsimp only; omega)
      _ = { x with day := x.day + (days + 1) } := by rw [Nat.add_right_comm, Nat.add_assoc]

def Date.nextMonth (x : Date) : Date :=
  if x.month < 12 then ⟨x.year, x.month + 1, 1⟩ else ⟨x.year + 1, 1, 1⟩

theorem Date.nextMonth_day (x : Date) : x.nextMonth.day = 1 := by
  unfold nextMonth
  split_ifs <;> rfl

theorem Date.tomorrow_of_last (h : x.day = daysInMonth x.year x.month) :
    x.tomorrow = x.nextMonth := if_neg (by omega)

theorem Date.plus_month (hday : x.day = 1) :
    x.plus 32 = { x.nextMonth with day := 33 - daysInMonth x.year x.month } := by
  have hlong := daysInMonth_ge x.year x.month
  have hshort := daysInMonth_le x.year x.month
  have hnext := daysInMonth_ge x.nextMonth.year x.nextMonth.month
  obtain ⟨rest, hrest⟩ := Nat.exists_eq_add_of_le hlong
  have hlast : x.plus (27 + rest) = { x with day := daysInMonth x.year x.month } := by
    rw [plus_of_le (by omega), hday, hrest]
    congr 1
    omega
  have hturn : x.plus (27 + rest + 1) = x.nextMonth := by
    rw [plus, Function.iterate_succ_apply', ← plus, hlast, tomorrow_of_last rfl]
    rfl
  have hsum : 32 = (4 - rest) + (27 + rest + 1) := by omega
  rw [hsum, plus, Function.iterate_add_apply, ← plus, ← plus, hturn,
    plus_of_le (by rw [nextMonth_day]; omega), nextMonth_day]
  congr 1
  omega

theorem midnight?_eq_some {m : Utc} (h : midnight? x = some m) :
    m.1.date = x ∧ m.1.clock = 0 := by
  unfold midnight? at h
  split_ifs at h
  rw [← Option.some.inj h]
  exact ⟨rfl, by simp [DateTime.clock]⟩

def Date.Before (x y : Date) : Prop :=
  x.year < y.year ∨ x.year = y.year ∧ (x.month < y.month ∨ x.month = y.month ∧ x.day < y.day)

theorem instant_lt_iff_before : d.1.instant < e.1.instant ↔ IsoTimestamps.Before d.1 e.1 :=
  instant_lt_iff (d.2.trans e.2.symm)

theorem not_date_before (h : d.1.instant ≤ e.1.instant) : ¬ e.1.date.Before d.1.date := by
  rw [← not_lt, instant_lt_iff_before] at h
  unfold IsoTimestamps.Before at h
  unfold Date.Before DateTime.date
  dsimp only
  omega

theorem instant_lt_midnight_iff (h : d.1.clock = 0) :
    e.1.instant < d.1.instant ↔ e.1.date.Before d.1.date := by
  rw [instant_lt_iff_before]
  unfold DateTime.clock at h
  unfold IsoTimestamps.Before Date.Before DateTime.date
  dsimp only
  omega

theorem Date.before_tomorrow_iff (hx : x.Valid) (hy : y.Valid) (h : ¬ y.Before x) :
    y.Before x.tomorrow ↔ y = x := by
  obtain ⟨year, month, day⟩ := x
  obtain ⟨year', month', day'⟩ := y
  obtain ⟨-, ⟨-, hmonth⟩, -, hday⟩ := hx
  obtain ⟨-, ⟨hfirst', hmonth'⟩, hpos', hday'⟩ := hy
  unfold Before at h
  unfold tomorrow Before
  dsimp only at *
  rw [mk.injEq]
  rcases eq_or_ne year' year with rfl | hyear
  · rcases eq_or_ne month' month with rfl | hmonths
    · split_ifs <;> dsimp only <;> omega
    · split_ifs <;> dsimp only <;> omega
  · split_ifs <;> dsimp only <;> omega

theorem Date.before_nextMonth_iff (hx : x.Valid) (hy : y.Valid) (h : ¬ y.Before x) :
    y.Before x.nextMonth ↔ y.year = x.year ∧ y.month = x.month := by
  obtain ⟨-, ⟨-, hmonth⟩, -, -⟩ := hx
  obtain ⟨-, ⟨hfirst', hmonth'⟩, hpos', -⟩ := hy
  unfold Before at h
  unfold nextMonth Before
  split_ifs <;> dsimp only <;> omega

inductive Period where
  | day
  | month
  deriving DecidableEq

def Period.start : Period → Utc → Date
  | .day, d => d.1.date
  | .month, d => { d.1.date with day := 1 }

def Period.next : Period → Utc → Option Utc
  | .day, d => nextMidnight d
  | .month, d => nextMonth d

theorem Period.start_month : Period.month.start e = Period.month.start d ↔
    e.1.date.year = d.1.date.year ∧ e.1.date.month = d.1.date.month := by
  unfold Period.start
  rw [Date.mk.injEq]
  exact ⟨fun h => ⟨h.1, h.2.1⟩, fun h => ⟨h.1, h.2, rfl⟩⟩

theorem nextMonth_eq_some {m : Utc} (h : IsoTimestamps.nextMonth d = some m) :
    m.1.date = d.1.date.nextMonth ∧ m.1.clock = 0 := by
  obtain ⟨later, hlater, hm⟩ := Option.bind_eq_some_iff.mp h
  obtain ⟨hdate, hclock⟩ := midnight?_eq_some hm
  refine ⟨?_, hclock⟩
  rw [hdate, (midnight?_eq_some hlater).1, Date.plus_month rfl]
  calc ({ d.1.date.nextMonth with day := 1 } : Date)
      = { d.1.date.nextMonth with day := d.1.date.nextMonth.day } := by rw [Date.nextMonth_day]
    _ = d.1.date.nextMonth := rfl

theorem Period.start_eq_iff {p : Period} {m : Utc} (hnext : p.next d = some m)
    (hle : d.1.instant ≤ e.1.instant) : p.start e = p.start d ↔ e.1.instant < m.1.instant := by
  have hlate := not_date_before hle
  cases p with
  | day =>
    obtain ⟨hdate, hclock⟩ := midnight?_eq_some hnext
    rw [instant_lt_midnight_iff hclock, hdate]
    exact (Date.before_tomorrow_iff d.1.date_valid e.1.date_valid hlate).symm
  | month =>
    obtain ⟨hdate, hclock⟩ := nextMonth_eq_some hnext
    rw [instant_lt_midnight_iff hclock, hdate, start_month]
    exact (Date.before_nextMonth_iff d.1.date_valid e.1.date_valid hlate).symm

theorem Period.next_congr {p : Period} (h : p.start e = p.start d) : p.next e = p.next d := by
  cases p with
  | day => exact congrArg (fun x => midnight? (Date.plus 1 x)) h
  | month =>
    have hfirst : ({ e.1.date with day := 1 } : Date) = { d.1.date with day := 1 } := h
    unfold next IsoTimestamps.nextMonth
    dsimp only
    rw [hfirst]

theorem Period.lt_next {p : Period} {m : Utc} (hnext : p.next d = some m) :
    d.1.instant < m.1.instant := (start_eq_iff hnext le_rfl).mp rfl

theorem Period.start_eq_of_between {p : Period} {f : Utc} (hde : d.1.instant ≤ e.1.instant)
    (hef : e.1.instant ≤ f.1.instant) (h : p.start f = p.start d) : p.start e = p.start d := by
  have hlate := not_date_before hde
  have hearly := not_date_before hef
  cases p with
  | day =>
    change f.1.date = d.1.date at h
    change e.1.date = d.1.date
    rw [h] at hearly
    generalize e.1.date = x, d.1.date = y at *
    obtain ⟨year, month, day⟩ := x
    obtain ⟨year', month', day'⟩ := y
    unfold Date.Before at *
    rw [Date.mk.injEq]
    dsimp only at *
    omega
  | month =>
    rw [start_month] at *
    unfold Date.Before at *
    omega

end

end IsoTimestamps
