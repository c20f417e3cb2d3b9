import Mathlib.Data.List.Basic
import Mathlib.Tactic.Ring

/-!
# ISO 8601 timestamps

Python's `datetime` with its `isoformat` and `fromisoformat`: the text of a timestamp, naive or
with an offset from UTC, is read back as that timestamp.
-/
namespace IsoTimestamps

/-- `n` in `w` decimal digits. -/
def pad : ℕ → ℕ → List Char
  | 0, _ => []
  | w + 1, n => pad w (n / 10) ++ [Nat.digitChar (n % 10)]

def digitValue (c : Char) : ℕ := c.toNat - '0'.toNat

def readDigits (w : ℕ) (s : List Char) : Option (ℕ × List Char) :=
  if (s.take w).length = w ∧ (s.take w).all Char.isDigit then
    some ((s.take w).foldl (fun n c => 10 * n + digitValue c) 0, s.drop w)
  else none

theorem length_pad (w n : ℕ) : (pad w n).length = w := by
  induction w generalizing n with
  | zero => rfl
  | succ w ih => rw [pad, List.length_append, ih, List.length_singleton]

theorem digitChar_digit (n : ℕ) :
    (Nat.digitChar (n % 10)).isDigit = true ∧ digitValue (Nat.digitChar (n % 10)) = n % 10 := by
  have table : ∀ d < 10, (Nat.digitChar d).isDigit = true ∧ digitValue (Nat.digitChar d) = d := by
    decide
  exact table _ (Nat.mod_lt _ (by decide))

theorem all_isDigit_pad (w n : ℕ) : (pad w n).all Char.isDigit = true := by
  induction w generalizing n with
  | zero => rfl
  | succ w ih => rw [pad, List.all_append, ih, List.all_cons, (digitChar_digit n).1]; rfl

theorem value_pad {w n : ℕ} (hn : n < 10 ^ w) :
    (pad w n).foldl (fun n c => 10 * n + digitValue c) 0 = n := by
  induction w generalizing n with
  | zero =>
    rw [pow_zero] at hn
    exact (Nat.lt_one_iff.mp hn).symm
  | succ w ih =>
    rw [pow_succ] at hn
    rw [pad, List.foldl_append, ih (by omega), List.foldl_cons, List.foldl_nil,
      (digitChar_digit n).2]
    omega

theorem readDigits_pad {w n : ℕ} (hn : n < 10 ^ w) (s : List Char) :
    readDigits w (pad w n ++ s) = some (n, s) := by
  have htake : (pad w n ++ s).take w = pad w n := List.take_left' (length_pad w n)
  have hdrop : (pad w n ++ s).drop w = s := List.drop_left' (length_pad w n)
  unfold readDigits
  rw [htake, hdrop, value_pad hn, if_pos ⟨length_pad w n, all_isDigit_pad w n⟩]

def isLeap (year : ℕ) : Bool := year % 4 = 0 && (year % 100 ≠ 0 || year % 400 = 0)

def daysInMonth (year month : ℕ) : ℕ :=
  if month = 2 then if isLeap year then 29 else 28
  else if month ∈ [4, 6, 9, 11] then 30 else 31

def ValidDate (year month day : ℕ) : Prop :=
  (1 ≤ year ∧ year ≤ 9999) ∧ (1 ≤ month ∧ month ≤ 12) ∧ 1 ≤ day ∧ day ≤ daysInMonth year month

instance (year month day : ℕ) : Decidable (ValidDate year month day) :=
  inferInstanceAs (Decidable (_ ∧ _))

def ValidClock (hour minute second microsecond : ℕ) : Prop :=
  hour < 24 ∧ minute < 60 ∧ second < 60 ∧ microsecond < 1000000

instance (hour minute second microsecond : ℕ) :
    Decidable (ValidClock hour minute second microsecond) :=
  inferInstanceAs (Decidable (_ ∧ _))

/-- An offset from UTC in microseconds is less than a day. -/
def ValidOffset (offset : Option ℤ) : Prop := ∀ o ∈ offset, o.natAbs < 86400000000

instance (offset : Option ℤ) : Decidable (ValidOffset offset) :=
  match offset with
  | none => isTrue nofun
  | some o => decidable_of_iff (o.natAbs < 86400000000) (by simp [ValidOffset])

/-- A `datetime`; without an offset it is naive. -/
structure DateTime where
  year : ℕ
  month : ℕ
  day : ℕ
  hour : ℕ
  minute : ℕ
  second : ℕ
  microsecond : ℕ
  offset : Option ℤ
  validDate : ValidDate year month day
  validClock : ValidClock hour minute second microsecond
  validOffset : ValidOffset offset
  deriving DecidableEq

def DateTime.Aware (d : DateTime) : Prop := d.offset ≠ none

instance (d : DateTime) : Decidable d.Aware := inferInstanceAs (Decidable (_ ≠ _))

theorem validOffset_utc : ValidOffset (some 0) := by decide

/-- `replace(tzinfo=timezone.utc)`. -/
def DateTime.replaceUtc (d : DateTime) : DateTime :=
  { d with offset := some 0, validOffset := validOffset_utc }

def fractionText (microsecond : ℕ) : List Char :=
  if microsecond = 0 then [] else '.' :: pad 6 microsecond

def clockText (hour minute second microsecond : ℕ) : List Char :=
  pad 2 hour ++ ':' :: (pad 2 minute ++ ':' :: (pad 2 second ++ fractionText microsecond))

/-- The absolute value of an offset; its seconds are left out where there are none. -/
def magnitudeText (n : ℕ) : List Char :=
  pad 2 (n / 3600000000) ++ ':' :: (pad 2 (n / 60000000 % 60) ++
    if n % 60000000 = 0 then []
    else ':' :: (pad 2 (n / 1000000 % 60) ++ fractionText (n % 1000000)))

def offsetText : Option ℤ → List Char
  | none => []
  | some o => (if o < 0 then '-' else '+') :: magnitudeText o.natAbs

def DateTime.isoformat (d : DateTime) : String :=
  String.ofList (pad 4 d.year ++ '-' :: (pad 2 d.month ++ '-' :: (pad 2 d.day ++ 'T' ::
    (clockText d.hour d.minute d.second d.microsecond ++ offsetText d.offset))))

def expect (c : Char) : List Char → Option (List Char)
  | [] => none
  | d :: s => if d = c then some s else none

def readFraction : List Char → Option (ℕ × List Char)
  | '.' :: s => readDigits 6 s
  | s => some (0, s)

def readMagnitude (s : List Char) : Option ℕ := do
  let (hour, s) ← readDigits 2 s
  let s ← expect ':' s
  let (minute, s) ← readDigits 2 s
  let whole := hour * 3600000000 + minute * 60000000
  if s = [] then return whole
  else
    let s ← expect ':' s
    let (second, s) ← readDigits 2 s
    let (microsecond, s) ← readFraction s
    if s = [] then return whole + second * 1000000 + microsecond else none

def readZone : List Char → Option (Option ℤ)
  | [] => some none
  | '+' :: s => (readMagnitude s).map fun n : ℕ => some (n : ℤ)
  | '-' :: s => (readMagnitude s).map fun n : ℕ => some (-(n : ℤ))
  | _ => none

/-- The texts that `isoformat` writes are read. -/
def fromisoformat (text : String) : Option DateTime := do
  let (year, s) ← readDigits 4 text.toList
  let s ← expect '-' s
  let (month, s) ← readDigits 2 s
  let s ← expect '-' s
  let (day, s) ← readDigits 2 s
  let s ← expect 'T' s
  let (hour, s) ← readDigits 2 s
  let s ← expect ':' s
  let (minute, s) ← readDigits 2 s
  let s ← expect ':' s
  let (second, s) ← readDigits 2 s
  let (microsecond, s) ← readFraction s
  let offset ← readZone s
  if h : ValidDate year month day ∧ ValidClock hour minute second microsecond ∧
      ValidOffset offset then
    return ⟨year, month, day, hour, minute, second, microsecond, offset, h.1, h.2.1, h.2.2⟩
  else none

@[simp] theorem expect_cons (c : Char) (s : List Char) : expect c (c :: s) = some s := by
  simp [expect]

theorem readFraction_fractionText {us : ℕ} (hus : us < 1000000) {s : List Char}
    (hs : s.head? ≠ some '.') : readFraction (fractionText us ++ s) = some (us, s) := by
  unfold fractionText
  split_ifs with hzero
  · subst hzero
    rw [List.nil_append]
    unfold readFraction
    split
    · exact absurd List.head?_cons hs
    · rfl
  · exact readDigits_pad hus s

theorem readMagnitude_magnitudeText {n : ℕ} (hn : n < 86400000000) :
    readMagnitude (magnitudeText n) = some n := by
  unfold readMagnitude magnitudeText
  rw [readDigits_pad (by omega)]
  simp only [Option.bind_eq_bind, Option.bind_some, expect_cons]
  rw [readDigits_pad (by omega)]
  simp only [Option.bind_some]
  by_cases hwhole : n % 60000000 = 0
  · rw [if_pos hwhole, if_pos rfl, Option.pure_def, Option.some.injEq]
    omega
  · rw [if_neg hwhole, if_neg (List.cons_ne_nil _ _), expect_cons]
    simp only [Option.bind_some]
    have hmicro := @readFraction_fractionText (n % 1000000) (Nat.mod_lt _ (by decide)) [] nofun
    rw [List.append_nil] at hmicro
    rw [readDigits_pad (by omega)]
    simp only [Option.bind_some, hmicro, if_true, Option.pure_def, Option.some.injEq]
    omega

theorem head?_offsetText (offset : Option ℤ) : (offsetText offset).head? ≠ some '.' := by
  cases offset with
  | none => exact nofun
  | some o =>
    rw [offsetText, List.head?_cons]
    split_ifs <;> decide

theorem readZone_offsetText {offset : Option ℤ} (h : ValidOffset offset) :
    readZone (offsetText offset) = some offset := by
  cases offset with
  | none => rfl
  | some o =>
    have hread := readMagnitude_magnitudeText (h o rfl)
    rw [offsetText]
    split_ifs with hneg
    · rw [readZone, hread, Option.map_some, Int.ofNat_natAbs_of_nonpos hneg.le, neg_neg]
    · rw [readZone, hread, Option.map_some, Int.natAbs_of_nonneg (not_lt.mp hneg)]

theorem bind_of_eq_some {α β : Type} {x : Option α} {a : α} (h : x = some a) (k : α → Option β) :
    (x >>= k) = k a := by
  rw [h]
  rfl

theorem daysInMonth_le (year month : ℕ) : daysInMonth year month ≤ 31 := by
  unfold daysInMonth
  split_ifs <;> decide

theorem fromisoformat_isoformat (d : DateTime) : fromisoformat d.isoformat = some d := by
  obtain ⟨⟨hyear, hyear'⟩, ⟨hmonth, hmonth'⟩, hday, hday'⟩ := d.validDate
  obtain ⟨hhour, hminute, hsecond, hmicro⟩ := d.validClock
  have hdays := daysInMonth_le d.year d.month
  unfold fromisoformat DateTime.isoformat clockText
  rw [String.toList_ofList]
  simp only [List.append_assoc, List.cons_append]
  refine (bind_of_eq_some (readDigits_pad (by omega) _) _).trans ?_
  refine (bind_of_eq_some (expect_cons _ _) _).trans ?_
  refine (bind_of_eq_some (readDigits_pad (by omega) _) _).trans ?_
  refine (bind_of_eq_some (expect_cons _ _) _).trans ?_
  refine (bind_of_eq_some (readDigits_pad (by omega) _) _).trans ?_
  refine (bind_of_eq_some (expect_cons _ _) _).trans ?_
  refine (bind_of_eq_some (readDigits_pad (by omega) _) _).trans ?_
  refine (bind_of_eq_some (expect_cons _ _) _).trans ?_
  refine (bind_of_eq_some (readDigits_pad (by omega) _) _).trans ?_
  refine (bind_of_eq_some (expect_cons _ _) _).trans ?_
  refine (bind_of_eq_some (readDigits_pad (by omega) _) _).trans ?_
  refine (bind_of_eq_some (readFraction_fractionText hmicro (head?_offsetText _)) _).trans ?_
  refine (bind_of_eq_some (readZone_offsetText d.validOffset) _).trans ?_
  exact dif_pos ⟨d.validDate, d.validClock, d.validOffset⟩

end IsoTimestamps
