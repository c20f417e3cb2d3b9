import LedgerLens.Governance
import LedgerLens.KeyValueLines

/-!
# The settings reloader

A change of one governed setting: the check of its key and value, the attribute of the live
settings object, and the line of the `.env` file, which is rewritten beside the file and then put in
its place. Every step that touches the object or a file can fail.
-/
namespace SettingsReloader

open Governance (ALLOWED_SETTINGS)
open KeyValueLines

/-- What the built-in conversions make of a text, or the text of what they raise. -/
structure Builtins (Real : Type) where
  int : String → Except String ℤ
  float : String → Except String Real
  repr : String → String
  decodeError : ByteArray → String

inductive Parsed (Real : Type) where
  | int (i : ℤ)
  | float (x : Real)
  | str (s : String)
  deriving DecidableEq

inductive TargetType where
  | int
  | float
  | str
  deriving DecidableEq, Repr

def TargetType.name : TargetType → String
  | .int => "int"
  | .float => "float"
  | .str => "str"

def TYPE_MAP : List (String × TargetType) := [
  ("RISK_SCORE_THRESHOLD", .int),
  ("SOROBAN_CIRCUIT_BREAKER_THRESHOLD", .int),
  ("FEEDBACK_DECAY_LAMBDA", .float),
  ("CROSS_CHAIN_MIN_CONFIDENCE", .float)]

def targetType (key : String) : TargetType := (TYPE_MAP.lookup key).getD .str

/-- `_default_risk_score_threshold` is a property, whose setter sets `risk_score_threshold`. -/
def attrMap : List (String × String) := [
  ("RISK_SCORE_THRESHOLD", "risk_score_threshold"),
  ("SOROBAN_CIRCUIT_BREAKER_THRESHOLD", "soroban_circuit_breaker_threshold"),
  ("FEEDBACK_DECAY_LAMBDA", "feedback_decay_lambda"),
  ("CROSS_CHAIN_MIN_CONFIDENCE", "cross_chain_min_confidence")]

def liveAttr (key : String) : String := (attrMap.lookup key).getD key.toLower

variable {Real : Type}

inductive ApplyError where
  | notModifiable (key : String)
  | cannotParse (newValue : String) (type : TargetType) (key reason : String)
  | undecodable (bytes : ByteArray)
  | raised (text : String)

/-- `str` of the exception. -/
def ApplyError.text (py : Builtins Real) : ApplyError → String
  | .notModifiable key => "Setting not modifiable via governance: " ++ key ++
      ". Disallowed keys include all secret keys."
  | .cannotParse newValue type key reason => "Cannot parse " ++ py.repr newValue ++ " as " ++
      type.name ++ " for " ++ key ++ ": " ++ reason
  | .undecodable bytes => py.decodeError bytes
  | .raised text => text

def parse (py : Builtins Real) (newValue : String) : TargetType → Except String (Parsed Real)
  | .int => (py.int newValue).map .int
  | .float => (py.float newValue).map .float
  | .str => .ok (.str newValue)

def check (py : Builtins Real) (key newValue : String) : Except ApplyError (Parsed Real) :=
  if key ∉ ALLOWED_SETTINGS then .error (.notModifiable key)
  else (parse py newValue (targetType key)).mapError fun reason =>
    .cannotParse newValue (targetType key) key reason

def entry (key newValue : List Char) : List Char := key ++ '=' :: newValue ++ ['\n']

def IsEntry (key line : List Char) : Prop :=
  (key ++ ['=']) <+: line ∨ ('#' :: key ++ ['=']) <+: line

instance (key line : List Char) : Decidable (IsEntry key line) :=
  inferInstanceAs (Decidable (_ ∨ _))

def replaceFirst (key newValue : List Char) : List (List Char) → Option (List (List Char))
  | [] => none
  | line :: lines =>
    if IsEntry key line then some (entry key newValue :: lines)
    else (replaceFirst key newValue lines).map (line :: ·)

def edit (key newValue : List Char) (lines : List (List Char)) : List (List Char) :=
  (replaceFirst key newValue lines).getD (lines ++ [entry key newValue])

/-- The settings object by attribute, and the two files; a file may be absent. -/
structure Live (Real : Type) where
  settings : String → Option (Parsed Real)
  env : Option ByteArray
  envTmp : Option ByteArray

def Live.setattr (o : Live Real) (attr : String) (value : Parsed Real) : Live Real :=
  { o with settings := Function.update o.settings attr (some value) }

/-- Which of the steps raise, by the text of the exception. A settings object that cannot be set is
passed over. A failed write leaves some temporary file, or none. -/
structure Faults where
  frozen : Bool
  readEnv : Option String
  writeTmp : Option (String × Option ByteArray)
  replaceEnv : Option String

def Faults.none : Faults := ⟨false, .none, .none, .none⟩

def readEnv (faults : Faults) : Option ByteArray → Except ApplyError (List Char)
  | .none => .ok []
  | some bytes =>
    match faults.readEnv with
    | some text => .error (.raised text)
    | .none =>
      match String.fromUTF8? bytes with
      | .none => .error (.undecodable bytes)
      | some text => .ok text.toList

def writeEnv (faults : Faults) (o : Live Real) (key newValue : String) :
    Live Real × Option ApplyError :=
  match readEnv faults o.env with
  | .error e => (o, some e)
  | .ok text =>
    let lines := edit key.toList newValue.toList (readlines (universalNewlines text))
    match faults.writeTmp with
    | some (text, envTmp) => ({ o with envTmp := envTmp }, some (.raised text))
    | .none =>
      let written := (String.ofList lines.flatten).toUTF8
      match faults.replaceEnv with
      | some text => ({ o with envTmp := some written }, some (.raised text))
      | .none => ({ o with env := some written, envTmp := .none }, .none)

def apply (py : Builtins Real) (faults : Faults) (o : Live Real) (key newValue : String) :
    Live Real × Option ApplyError :=
  match check py key newValue with
  | .error e => (o, some e)
  | .ok parsed =>
    writeEnv faults (if faults.frozen then o else o.setattr (liveAttr key) parsed) key newValue

def Live.envText (o : Live Real) : List Char :=
  match o.env with
  | none => []
  | some bytes => ((String.fromUTF8? bytes).map String.toList).getD []

def Live.envValue (o : Live Real) (key : List Char) : Option (List Char) := valueOf key o.envText

def laterLines (key : List Char) : List (List Char) → Option (List (List Char))
  | [] => none
  | line :: lines => if IsEntry key line then some lines else laterLines key lines

/-- The value is on one line. Behind the first entry the key is not assigned, or assigned this
value; without an entry the last line is ended. -/
def Settles (key newValue text : List Char) : Prop :=
  ('\n' ∉ newValue ∧ '\r' ∉ newValue) ∧
    match laterLines key (readlines (universalNewlines text)) with
    | some later => lastValue key later = none ∨ lastValue key later = some newValue
    | none => ¬ EndsOpen (universalNewlines text)

def Assigns (key newValue text text' : List Char) : Prop :=
  valueOf key text' = some newValue ∧
    ∀ other, other ≠ key → valueOf other text' = valueOf other text

section

variable {key newValue line text : List Char} {lines : List (List Char)}

theorem edit_cases (key newValue : List Char) (lines : List (List Char)) :
    (∃ before line after, lines = before ++ line :: after ∧ IsEntry key line ∧
      edit key newValue lines = before ++ entry key newValue :: after ∧
      laterLines key lines = some after) ∨
    ((∀ line ∈ lines, ¬ IsEntry key line) ∧
      edit key newValue lines = lines ++ [entry key newValue] ∧ laterLines key lines = none) := by
  rw [edit]
  induction lines with
  | nil => exact .inr ⟨fun _ h => absurd h List.not_mem_nil, rfl, rfl⟩
  | cons line lines ih =>
    by_cases hentry : IsEntry key line
    · rw [replaceFirst, if_pos hentry, laterLines, if_pos hentry]
      exact .inl ⟨[], line, lines, rfl, hentry, rfl, rfl⟩
    rw [replaceFirst, if_neg hentry, laterLines, if_neg hentry]
    rcases ih with ⟨before, line', after, rfl, hline', hedit, hlater⟩ | ⟨hnone, hedit, hlater⟩
    · refine .inl ⟨line :: before, line', after, rfl, hline', ?_, hlater⟩
      cases hreplace : replaceFirst key newValue (before ++ line' :: after) with
      | none =>
        rw [hreplace, Option.getD_none, List.append_assoc, List.append_cancel_left_eq] at hedit
        have hlength := congrArg List.length hedit
        simp at hlength
      | some lines' =>
        rw [hreplace, Option.getD_some] at hedit
        exact congrArg (line :: ·) hedit
    · refine .inr ⟨List.forall_mem_cons.mpr ⟨hentry, hnone⟩, ?_, hlater⟩
      cases hreplace : replaceFirst key newValue lines with
      | none => rfl
      | some lines' =>
        rw [hreplace, Option.getD_some] at hedit
        exact congrArg (line :: ·) hedit

theorem key_unique {key key' rest rest' : List Char} (hkey : '=' ∉ key) (hkey' : '=' ∉ key')
    (h : key ++ '=' :: rest = key' ++ '=' :: rest') : key = key' := by
  have hsame := congrArg (List.takeWhile (· ≠ '=')) h
  rwa [takeWhile_append_cons hkey, takeWhile_append_cons hkey'] at hsame

theorem IsEntry.assignment (hkey : IsKey key) (h : IsEntry key line) {key' value : List Char}
    (hassigned : assignment line = some (key', value)) : key' = key := by
  rcases h with ⟨rest, rfl⟩ | ⟨rest, rfl⟩
  · obtain ⟨rest', hline, hkey', -⟩ := assignment_eq_some hassigned
    rw [List.append_assoc, List.singleton_append] at hline
    exact (key_unique hkey.equals hkey' hline).symm
  · have hnone : KeyValueLines.assignment ('#' :: key ++ ['='] ++ rest) = none :=
      assignment_comment _
    rw [hnone] at hassigned
    cases hassigned

theorem isEntry_of_assignment {value : List Char}
    (hassigned : assignment line = some (key, value)) : IsEntry key line := by
  obtain ⟨rest, rfl, -⟩ := assignment_eq_some hassigned
  exact .inl ⟨value ++ rest, by rw [List.append_assoc, List.singleton_append]⟩

theorem lastValue_of_noEntry (h : ∀ line ∈ lines, ¬ IsEntry key line) :
    lastValue key lines = none :=
  lastValue_eq_none fun line hline _ hassigned => h line hline (isEntry_of_assignment hassigned)

theorem assignment_entry (hkey : IsKey key) (hvalue : '\n' ∉ newValue) :
    assignment (entry key newValue) = some (key, newValue) := assignment_ended hkey hvalue

theorem feed_not_mem (hkey : IsKey key) (hvalue : '\n' ∉ newValue) :
    '\n' ∉ key ++ '=' :: newValue := fun hmem =>
  (List.mem_append.mp hmem).elim hkey.feed
    fun h => (List.mem_cons.mp h).elim (by decide) hvalue

theorem return_not_mem_entry (hkey : IsKey key) (hvalue : '\r' ∉ newValue) :
    '\r' ∉ entry key newValue := by
  simp [entry, hkey.carriageReturn, hvalue]

theorem lastValue_entry (hkey : IsKey key) (hvalue : '\n' ∉ newValue) (other : List Char) :
    lastValue other [entry key newValue] = if key = other then some newValue else none := by
  rw [lastValue_singleton, assignment_entry hkey hvalue]
  rfl

theorem IsEntry.lastValue_other (hkey : IsKey key) (h : IsEntry key line) {other : List Char}
    (hother : other ≠ key) : lastValue other [line] = none :=
  lastValue_eq_none fun line' hline' value hassigned => by
    obtain rfl := List.mem_singleton.mp hline'
    exact hother (h.assignment hkey hassigned)

theorem lastValue_split (other : List Char) (before after : List (List Char)) :
    lastValue other (before ++ line :: after) = (lastValue other after).or
      ((lastValue other [line]).or (lastValue other before)) := by
  rw [List.append_cons, lastValue_append, lastValue_append]

/-- An edit in the place of the first entry. -/
theorem assigns_replaced_iff (hkey : IsKey key) (hfeed : '\n' ∉ newValue)
    (hreturn : '\r' ∉ newValue) {before after : List (List Char)}
    (hlines : readlines (universalNewlines text) = before ++ line :: after)
    (hline : IsEntry key line) :
    Assigns key newValue text (before ++ entry key newValue :: after).flatten ↔
      lastValue key after = none ∨ lastValue key after = some newValue := by
  have hread : Lines (before ++ entry key newValue :: after) := by
    have h := readlines_lines (universalNewlines text)
    rw [hlines] at h
    exact h.replace (feed_not_mem hkey hfeed)
  have hno : '\r' ∉ (before ++ line :: after).flatten := by
    rw [← hlines, flatten_readlines]
    exact not_mem_universalNewlines text
  have hno' : '\r' ∉ (before ++ entry key newValue :: after).flatten := by
    have hentry := return_not_mem_entry hkey hreturn
    simp only [List.flatten_append, List.flatten_cons, List.mem_append, not_or] at hno ⊢
    exact ⟨hno.1, hentry, hno.2.2⟩
  have hother : ∀ other, other ≠ key →
      valueOf other (before ++ entry key newValue :: after).flatten = valueOf other text := by
    intro other hother
    rw [valueOf_flatten hread hno', valueOf, hlines, lastValue_split, lastValue_split,
      lastValue_entry hkey hfeed, if_neg hother.symm, hline.lastValue_other hkey hother]
  rw [Assigns, and_iff_left hother, valueOf_flatten hread hno', lastValue_split,
    lastValue_entry hkey hfeed, if_pos rfl, Option.some_or]
  cases lastValue key after with
  | none => simp
  | some value => simp

theorem assignment_joined_ne {last value : List Char} (hkey : IsKey key) (hne : last ≠ [])
    (hlast : ¬ IsEntry key last) :
    assignment (last ++ (key ++ '=' :: newValue) ++ ['\n']) ≠ some (key, value) := by
  intro hassigned
  obtain ⟨rest, hshape, -⟩ := assignment_eq_some hassigned
  by_cases hequals : '=' ∈ last
  · obtain ⟨before, after, rfl, hbefore⟩ := List.eq_append_cons_of_mem hequals
    simp only [List.append_assoc, List.cons_append] at hshape
    obtain rfl := key_unique hbefore hkey.equals hshape
    exact hlast (.inl ⟨after, by rw [List.append_assoc, List.singleton_append]⟩)
  · have hnot : '=' ∉ last ++ key := fun h => (List.mem_append.mp h).elim hequals hkey.equals
    simp only [← List.append_assoc] at hshape
    rw [List.append_assoc (last ++ key), List.cons_append] at hshape
    exact hne (List.append_left_eq_self.mp (key_unique hnot hkey.equals hshape))

/-- An edit behind the last line. -/
theorem assigns_appended_iff (hkey : IsKey key) (hfeed : '\n' ∉ newValue)
    (hreturn : '\r' ∉ newValue)
    (hnone : ∀ line ∈ readlines (universalNewlines text), ¬ IsEntry key line) :
    Assigns key newValue text
        (readlines (universalNewlines text) ++ [entry key newValue]).flatten ↔
      ¬ EndsOpen (universalNewlines text) := by
  have hread := readlines_lines (universalNewlines text)
  have hno : '\r' ∉ (readlines (universalNewlines text) ++ [entry key newValue]).flatten := by
    have hentry := return_not_mem_entry hkey hreturn
    have hold := not_mem_universalNewlines text
    simp [flatten_readlines, hold, hentry]
  constructor
  · intro hassigns hopen
    rw [← flatten_readlines (universalNewlines text)] at hopen
    obtain ⟨init, last, hlines, hne, hlast⟩ := hread.exists_open hopen
    rw [hlines] at hread hnone hno hassigns
    -- The entry is joined to the last line.
    have hjoin : (init ++ [last] ++ [entry key newValue]).flatten =
        (init ++ [(last ++ (key ++ '=' :: newValue)) ++ ['\n']]).flatten := by
      simp [entry]
    have hfeed' : '\n' ∉ last ++ (key ++ '=' :: newValue) := fun hmem =>
      (List.mem_append.mp hmem).elim hlast (feed_not_mem hkey hfeed)
    have hvalue := hassigns.1
    rw [hjoin] at hvalue hno
    rw [valueOf_flatten (hread.replace hfeed') hno, lastValue_append] at hvalue
    rw [lastValue_of_noEntry fun line hline => hnone line (List.mem_append_left _ hline),
      Option.or_none] at hvalue
    obtain ⟨line, hline, hassigned⟩ := exists_of_lastValue hvalue
    obtain rfl := List.mem_singleton.mp hline
    exact assignment_joined_ne hkey hne
      (hnone last (List.mem_append_right _ List.mem_cons_self)) hassigned
  · intro hended
    rw [← flatten_readlines (universalNewlines text)] at hended
    have hlines' : Lines (readlines (universalNewlines text) ++ [entry key newValue]) :=
      hread.concat hended (feed_not_mem hkey hfeed)
    refine ⟨?_, fun other hother => ?_⟩
    · rw [valueOf_flatten hlines' hno, lastValue_append, lastValue_entry hkey hfeed, if_pos rfl,
        Option.some_or]
    · rw [valueOf_flatten hlines' hno, lastValue_append, lastValue_entry hkey hfeed,
        if_neg hother.symm, Option.none_or, valueOf]

theorem assigns_edit_iff (hkey : IsKey key) (newValue text : List Char) :
    Assigns key newValue text
        (edit key newValue (readlines (universalNewlines text))).flatten ↔
      Settles key newValue text := by
  have hclean : Assigns key newValue text
      (edit key newValue (readlines (universalNewlines text))).flatten →
        '\n' ∉ newValue ∧ '\r' ∉ newValue := fun h => not_mem_of_valueOf h.1
  rw [Settles, ← and_iff_right_of_imp hclean]
  refine and_congr_right fun ⟨hfeed, hreturn⟩ => ?_
  rcases edit_cases key newValue (readlines (universalNewlines text)) with
    ⟨before, line, after, hlines, hline, hedit, hlater⟩ | ⟨hnone, hedit, hlater⟩
  · rw [hedit, hlater]
    exact assigns_replaced_iff hkey hfeed hreturn hlines hline
  · rw [hedit, hlater]
    exact assigns_appended_iff hkey hfeed hreturn hnone

end

section

variable {py : Builtins Real} {faults : Faults} {o o' : Live Real} {key newValue : String}

theorem isKey_allowed (h : key ∈ ALLOWED_SETTINGS) : IsKey key.toList := by
  simp only [ALLOWED_SETTINGS, List.mem_cons, List.not_mem_nil, or_false] at h
  rcases h with rfl | rfl | rfl | rfl <;> constructor <;> decide

theorem fromUTF8?_toUTF8 (text : String) : String.fromUTF8? text.toUTF8 = some text :=
  dif_pos text.isValidUTF8

theorem check_eq_ok {parsed : Parsed Real} (h : check py key newValue = .ok parsed) :
    key ∈ ALLOWED_SETTINGS ∧ parse py newValue (targetType key) = .ok parsed := by
  unfold check at h
  split_ifs at h with hkey
  refine ⟨hkey, ?_⟩
  cases hparse : parse py newValue (targetType key) with
  | error reason =>
    rw [hparse] at h
    cases h
  | ok value =>
    rw [hparse] at h
    exact congrArg Except.ok (Except.ok.inj h)

theorem readEnv_eq_ok {text : List Char} (h : readEnv faults o.env = .ok text) :
    o.envText = text := by
  unfold readEnv at h
  rw [Live.envText]
  cases henv : o.env with
  | none =>
    rw [henv] at h
    exact Except.ok.inj h
  | some bytes =>
    rw [henv] at h
    dsimp only at h
    split at h
    · cases h
    · split at h
      · cases h
      · next hdecoded =>
        dsimp only
        rw [hdecoded]
        exact Except.ok.inj h

theorem writeEnv_cases (faults : Faults) (o : Live Real) (key newValue : String) :
    (∃ e, (writeEnv faults o key newValue).2 = some e ∧
      (writeEnv faults o key newValue).1.env = o.env) ∨
    (writeEnv faults o key newValue).2 = none ∧ (writeEnv faults o key newValue).1.envText =
      (edit key.toList newValue.toList (readlines (universalNewlines o.envText))).flatten := by
  rw [writeEnv]
  cases hread : readEnv faults o.env with
  | error e => exact .inl ⟨e, rfl, rfl⟩
  | ok text =>
    dsimp only
    split
    · exact .inl ⟨_, rfl, rfl⟩
    · split
      · exact .inl ⟨_, rfl, rfl⟩
      · refine .inr ⟨rfl, ?_⟩
        rw [readEnv_eq_ok hread, Live.envText]
        dsimp only
        rw [fromUTF8?_toUTF8, Option.map_some, Option.getD_some, String.toList_ofList]

theorem writeEnv_eq_none (h : writeEnv faults o key newValue = (o', none)) : o'.envText =
    (edit key.toList newValue.toList (readlines (universalNewlines o.envText))).flatten := by
  rcases writeEnv_cases faults o key newValue with ⟨e, herror, -⟩ | ⟨-, htext⟩
  · rw [h] at herror
    cases herror
  · rw [h] at htext
    exact htext

theorem writeEnv_env {e : ApplyError} (h : (writeEnv faults o key newValue).2 = some e) :
    (writeEnv faults o key newValue).1.env = o.env := by
  rcases writeEnv_cases faults o key newValue with ⟨_, -, henv⟩ | ⟨hnone, -⟩
  · exact henv
  · rw [hnone] at h
    cases h

theorem apply_eq_none (h : apply py faults o key newValue = (o', none)) :
    key ∈ ALLOWED_SETTINGS ∧ o'.envText =
      (edit key.toList newValue.toList (readlines (universalNewlines o.envText))).flatten := by
  unfold apply at h
  cases hcheck : check py key newValue with
  | error e =>
    rw [hcheck] at h
    cases h
  | ok parsed =>
    rw [hcheck] at h
    refine ⟨(check_eq_ok hcheck).1, ?_⟩
    have htext := writeEnv_eq_none h
    split_ifs at htext
    · exact htext
    · exact htext

theorem apply_of_check_error {e : ApplyError} (h : check py key newValue = .error e) :
    apply py faults o key newValue = (o, some e) := by
  rw [apply, h]

theorem apply_env {e : ApplyError} (h : (apply py faults o key newValue).2 = some e) :
    (apply py faults o key newValue).1.env = o.env := by
  rw [apply] at h ⊢
  cases hcheck : check py key newValue with
  | error _ => rfl
  | ok parsed =>
    rw [hcheck] at h
    refine (writeEnv_env h).trans ?_
    split_ifs <;> rfl

theorem exists_apply {parsed : Parsed Real} (hcheck : check py key newValue = .ok parsed)
    (text : String) (henv : o.env = some text.toUTF8) :
    ∃ o', apply py .none o key newValue = (o', none) := by
  have hread : readEnv .none (o.setattr (liveAttr key) parsed).env = .ok text.toList := by
    rw [Live.setattr, henv, readEnv]
    simp only [Faults.none]
    rw [fromUTF8?_toUTF8]
  rw [apply, hcheck]
  simp only [Faults.none, Bool.false_eq_true, if_false]
  rw [writeEnv]
  simp only [Faults.none] at hread ⊢
  rw [hread]
  exact ⟨_, rfl⟩

end

/-- A change that succeeds makes the file assign the value to the key, and to every other key what
it did, exactly when the value is on one line and, where the file has an entry for the key, none of
the assignments behind the first one has the last word with another value; where it has none, the
file's last line is ended. -/
theorem apply_assigns_iff (py : Builtins Real) (faults : Faults) (o o' : Live Real)
    (key newValue : String) (h : apply py faults o key newValue = (o', none)) :
    (o'.envValue key.toList = some newValue.toList ∧
      ∀ other, other ≠ key.toList → o'.envValue other = o.envValue other) ↔
      Settles key.toList newValue.toList o.envText := by
  obtain ⟨hkey, htext⟩ := apply_eq_none h
  have hiff := assigns_edit_iff (isKey_allowed hkey) newValue.toList o.envText
  rw [← htext] at hiff
  exact hiff

def decimals : Builtins ℕ where
  int s :=
    if s.toList ≠ [] ∧ s.toList.all Char.isDigit then .ok (Nat.ofDigitChars 10 s.toList 0)
    else .error ("invalid literal for int() with base 10: '" ++ s ++ "'")
  float s :=
    if s.toList ≠ [] ∧ s.toList.all Char.isDigit then .ok (Nat.ofDigitChars 10 s.toList 0)
    else .error ("could not convert string to float: '" ++ s ++ "'")
  repr s := "'" ++ s ++ "'"
  decodeError _ := "'utf-8' codec can't decode the file"

def liveWith (env : Option String) : Live ℕ where
  settings attr := if attr = "risk_score_threshold" then some (.int 80) else none
  env := env.map String.toUTF8
  envTmp := none

def commentedOut : String := "#RISK_SCORE_THRESHOLD=70\nRISK_SCORE_THRESHOLD=80\n"

theorem check_threshold : check decimals "RISK_SCORE_THRESHOLD" "75" = .ok (.int 75) := by
  rfl

theorem apply_assigns_iff_threshold : ∃ o',
    apply decimals .none (liveWith (some commentedOut)) "RISK_SCORE_THRESHOLD" "75" = (o', none) ∧
    ((o'.envValue "RISK_SCORE_THRESHOLD".toList = some "75".toList ∧
      ∀ other, other ≠ "RISK_SCORE_THRESHOLD".toList →
        o'.envValue other = (liveWith (some commentedOut)).envValue other) ↔
      Settles "RISK_SCORE_THRESHOLD".toList "75".toList
        (liveWith (some commentedOut)).envText) := by
  obtain ⟨o', h⟩ := exists_apply check_threshold commentedOut
    (rfl : (liveWith (some commentedOut)).env = some commentedOut.toUTF8)
  exact ⟨o', h, apply_assigns_iff _ _ _ _ _ _ h⟩

/-- The comment is turned into the assignment, and the old assignment is still the last one. -/
theorem commented_entry_misses : ∃ o',
    apply decimals .none (liveWith (some commentedOut)) "RISK_SCORE_THRESHOLD" "75" = (o', none) ∧
    o'.envValue "RISK_SCORE_THRESHOLD".toList = some "80".toList := by
  obtain ⟨o', h⟩ := exists_apply check_threshold commentedOut
    (rfl : (liveWith (some commentedOut)).env = some commentedOut.toUTF8)
  refine ⟨o', h, ?_⟩
  have htext : (liveWith (some commentedOut)).envText = commentedOut.toList := by
    rw [liveWith, Live.envText, Option.map_some]
    dsimp only
    rw [fromUTF8?_toUTF8]
    rfl
  rw [Live.envValue, (apply_eq_none h).2, htext]
  decide +kernel

end SettingsReloader
