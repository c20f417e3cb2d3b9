import Mathlib.Data.List.Basic
import Mathlib.Data.List.TakeWhile

/-!
# Files of keys and values

Text files with one `key=value` to a line, as they are read: universal newlines, comments, and the
last assignment of a key. A file is written by concatenating lines, and what is read from it then
are these lines when each of them but the last is ended.
-/
namespace KeyValueLines

def skipFeeds : Bool → List Char → List Char
  | _, [] => []
  | afterReturn, c :: cs =>
    if c = '\r' then '\n' :: skipFeeds true cs
    else if c = '\n' ∧ afterReturn then skipFeeds false cs
    else c :: skipFeeds false cs

/-- A carriage return ends a line, alone or with the line feed behind it. -/
def universalNewlines (text : List Char) : List Char := skipFeeds false text

def readlines : List Char → List (List Char)
  | [] => []
  | c :: cs =>
    if c = '\n' then ['\n'] :: readlines cs
    else
      match readlines cs with
      | [] => [[c]]
      | line :: lines => (c :: line) :: lines

/-- Lines as they are read: all but the last are ended. -/
inductive Lines : List (List Char) → Prop where
  | nil : Lines []
  | last {line : List Char} : line ≠ [] → '\n' ∉ line → Lines [line]
  | cons {body : List Char} {lines : List (List Char)} : '\n' ∉ body → Lines lines →
      Lines ((body ++ ['\n']) :: lines)

def EndsOpen (text : List Char) : Prop := text ≠ [] ∧ text.getLast? ≠ some '\n'

instance (text : List Char) : Decidable (EndsOpen text) := inferInstanceAs (Decidable (_ ∧ _))

section

variable {text line body : List Char} {lines before after : List (List Char)} {c : Char}

theorem not_mem_skipFeeds (b : Bool) (text : List Char) : '\r' ∉ skipFeeds b text := by
  induction text generalizing b with
  | nil => exact List.not_mem_nil
  | cons c cs ih =>
    rw [skipFeeds]
    split_ifs with hreturn hfeed
    · exact List.not_mem_cons_of_ne_of_not_mem (by decide) (ih true)
    · exact ih false
    · exact List.not_mem_cons_of_ne_of_not_mem (fun h => hreturn h.symm) (ih false)

theorem not_mem_universalNewlines (text : List Char) : '\r' ∉ universalNewlines text :=
  not_mem_skipFeeds false text

theorem universalNewlines_eq_self (h : '\r' ∉ text) : universalNewlines text = text := by
  rw [universalNewlines]
  induction text with
  | nil => rfl
  | cons c cs ih =>
    obtain ⟨hc, hcs⟩ := not_or.mp (mt List.mem_cons.mpr h)
    rw [skipFeeds, if_neg (fun heq => hc heq.symm), if_neg (fun hand => Bool.false_ne_true hand.2),
      ih hcs]

theorem flatten_readlines (text : List Char) : (readlines text).flatten = text := by
  induction text with
  | nil => rfl
  | cons c cs ih =>
    rw [readlines]
    split_ifs with hc
    · rw [List.flatten_cons, ih, hc]
      rfl
    · cases hlines : readlines cs with
      | nil =>
        rw [hlines] at ih
        rw [← ih]
        rfl
      | cons line lines =>
        rw [hlines] at ih
        exact congrArg (c :: ·) ih

theorem Lines.push (h : Lines (line :: lines)) (hc : c ≠ '\n') : Lines ((c :: line) :: lines) := by
  cases h with
  | last _ hline =>
    exact .last (List.cons_ne_nil _ _) (List.not_mem_cons_of_ne_of_not_mem hc.symm hline)
  | @cons body _ hbody hlines =>
    exact @Lines.cons (c :: body) _ (List.not_mem_cons_of_ne_of_not_mem hc.symm hbody) hlines

theorem readlines_lines (text : List Char) : Lines (readlines text) := by
  induction text with
  | nil => exact .nil
  | cons c cs ih =>
    rw [readlines]
    split_ifs with hc
    · exact @Lines.cons [] _ List.not_mem_nil ih
    · cases hlines : readlines cs with
      | nil =>
        exact .last (List.cons_ne_nil _ _)
          (List.not_mem_cons_of_ne_of_not_mem (fun h => hc h.symm) List.not_mem_nil)
      | cons line lines =>
        rw [hlines] at ih
        exact ih.push hc

theorem readlines_ended (hbody : '\n' ∉ body) (text : List Char) :
    readlines (body ++ '\n' :: text) = (body ++ ['\n']) :: readlines text := by
  induction body with
  | nil => rfl
  | cons c body ih =>
    obtain ⟨hc, hbody⟩ := not_or.mp (mt List.mem_cons.mpr hbody)
    rw [List.cons_append, readlines, if_neg (fun heq => hc heq.symm), ih hbody]
    rfl

theorem readlines_last (hne : line ≠ []) (h : '\n' ∉ line) : readlines line = [line] := by
  induction line with
  | nil => exact absurd rfl hne
  | cons c cs ih =>
    obtain ⟨hc, hcs⟩ := not_or.mp (mt List.mem_cons.mpr h)
    rw [readlines, if_neg (fun heq => hc heq.symm)]
    cases cs with
    | nil => rfl
    | cons d ds => rw [ih (List.cons_ne_nil _ _) hcs]

theorem Lines.readlines_flatten (h : Lines lines) : readlines lines.flatten = lines := by
  induction h with
  | nil => rfl
  | last hne hline =>
    rw [List.flatten_cons, List.flatten_nil, List.append_nil, readlines_last hne hline]
  | cons hbody _ ih =>
    rw [List.flatten_cons, List.append_assoc]
    exact (readlines_ended hbody _).trans (congrArg _ ih)

/-- An ended line may stand in the place of any other. -/
theorem Lines.replace (h : Lines (before ++ line :: after)) (hbody : '\n' ∉ body) :
    Lines (before ++ (body ++ ['\n']) :: after) := by
  induction before with
  | nil =>
    cases h with
    | last => exact .cons hbody .nil
    | cons _ hafter => exact .cons hbody hafter
  | cons l before ih =>
    rw [List.cons_append] at h
    generalize hrest : before ++ line :: after = rest at h
    cases h with
    | last => exact absurd hrest (List.append_ne_nil_of_right_ne_nil _ (List.cons_ne_nil _ _))
    | cons hl hlines =>
      subst hrest
      exact .cons hl (ih hlines)

theorem endsOpen_append (front : List Char) (h : EndsOpen text) : EndsOpen (front ++ text) := by
  refine ⟨List.append_ne_nil_of_right_ne_nil _ h.1, ?_⟩
  rw [List.getLast?_append_of_ne_nil _ h.1]
  exact h.2

theorem Lines.concat (h : Lines lines) (hended : ¬ EndsOpen lines.flatten) (hbody : '\n' ∉ body) :
    Lines (lines ++ [body ++ ['\n']]) := by
  induction h with
  | nil => exact .cons hbody .nil
  | @last line hne hline =>
    refine absurd ⟨?_, fun hlast => hline ?_⟩ hended
    · rwa [List.flatten_cons, List.flatten_nil, List.append_nil]
    · rw [List.flatten_cons, List.flatten_nil, List.append_nil] at hlast
      exact List.mem_of_getLast? hlast
  | cons hfirst _ ih =>
    rw [List.flatten_cons] at hended
    exact .cons hfirst (ih fun hopen => hended (endsOpen_append _ hopen))

theorem Lines.exists_open (h : Lines lines) (hopen : EndsOpen lines.flatten) :
    ∃ init line, lines = init ++ [line] ∧ line ≠ [] ∧ '\n' ∉ line := by
  induction h with
  | nil => exact absurd rfl hopen.1
  | @last line hne hline => exact ⟨[], line, rfl, hne, hline⟩
  | @cons body lines _ _ ih =>
    rw [List.flatten_cons] at hopen
    have hrest : EndsOpen lines.flatten := by
      by_cases hnil : lines.flatten = []
      · rw [hnil, List.append_nil] at hopen
        exact absurd List.getLast?_concat hopen.2
      · refine ⟨hnil, ?_⟩
        rw [← List.getLast?_append_of_ne_nil _ hnil]
        exact hopen.2
    obtain ⟨init, line, rfl, hline⟩ := ih hrest
    exact ⟨(body ++ ['\n']) :: init, line, rfl, hline⟩

end

def assignment (line : List Char) : Option (List Char × List Char) :=
  let content := line.takeWhile (· ≠ '\n')
  if content.head? = some '#' then none
  else if '=' ∈ content then
    some (content.takeWhile (· ≠ '='), (content.dropWhile (· ≠ '=')).tail)
  else none

def lastValue (key : List Char) (lines : List (List Char)) : Option (List Char) :=
  (lines.filterMap assignment).reverse.lookup key

def valueOf (key text : List Char) : Option (List Char) :=
  lastValue key (readlines (universalNewlines text))

/-- A line can assign to the key. -/
structure IsKey (key : List Char) : Prop where
  equals : '=' ∉ key
  feed : '\n' ∉ key
  carriageReturn : '\r' ∉ key
  comment : key.head? ≠ some '#'

section

variable {key value line : List Char} {lines before after : List (List Char)}

theorem takeWhile_append_cons {body rest : List Char} {c : Char} (h : c ∉ body) :
    (body ++ c :: rest).takeWhile (· ≠ c) = body := by
  have hbody : ∀ a ∈ body, decide (a ≠ c) = true := fun a ha =>
    decide_eq_true (fun heq => h (heq ▸ ha))
  rw [List.takeWhile_append_of_pos hbody, List.takeWhile_cons, if_neg (by simp), List.append_nil]

theorem dropWhile_append_cons {body rest : List Char} {c : Char} (h : c ∉ body) :
    (body ++ c :: rest).dropWhile (· ≠ c) = c :: rest := by
  have hbody : ∀ a ∈ body, decide (a ≠ c) = true := fun a ha =>
    decide_eq_true (fun heq => h (heq ▸ ha))
  rw [List.dropWhile_append_of_pos hbody, List.dropWhile_cons, if_neg (by simp)]

theorem IsKey.ne_nil_head (h : IsKey key) (rest : List Char) :
    (key ++ '=' :: rest).head? ≠ some '#' := by
  cases key with
  | nil => exact fun heq => absurd (Option.some.inj heq) (by decide)
  | cons c cs => exact h.comment

theorem assignment_ended (hkey : IsKey key) (hvalue : '\n' ∉ value) :
    assignment (key ++ '=' :: value ++ ['\n']) = some (key, value) := by
  have hfeed : '\n' ∉ key ++ '=' :: value := fun hmem => by
    rcases List.mem_append.mp hmem with hmem | hmem
    · exact hkey.feed hmem
    · exact (List.mem_cons.mp hmem).elim (by decide) hvalue
  rw [assignment]
  simp only [takeWhile_append_cons hfeed]
  rw [if_neg (hkey.ne_nil_head value), if_pos (List.mem_append_right _ List.mem_cons_self),
    takeWhile_append_cons hkey.equals, dropWhile_append_cons hkey.equals, List.tail_cons]

theorem assignment_comment (rest : List Char) : assignment ('#' :: rest) = none := by
  have hhead : (('#' :: rest).takeWhile (· ≠ '\n')).head? = some '#' := rfl
  rw [assignment]
  exact if_pos hhead

theorem assignment_eq_some (h : assignment line = some (key, value)) :
    ∃ rest, line = key ++ '=' :: (value ++ rest) ∧ '=' ∉ key ∧ '\n' ∉ value := by
  unfold assignment at h
  simp only at h
  split_ifs at h with hhead hequals
  obtain ⟨before, after, hcontent, hbefore⟩ := List.eq_append_cons_of_mem hequals
  rw [hcontent, takeWhile_append_cons hbefore, dropWhile_append_cons hbefore] at h
  obtain ⟨rfl, rfl⟩ := Prod.mk.inj (Option.some.inj h)
  refine ⟨line.dropWhile (· ≠ '\n'), ?_, hbefore, fun hmem => ?_⟩
  · have hsplit := @List.takeWhile_append_dropWhile _ (· ≠ '\n') line
    rw [hcontent, List.append_assoc] at hsplit
    exact hsplit.symm
  · have hfeed : '\n' ∈ line.takeWhile (· ≠ '\n') := by
      rw [hcontent]
      exact List.mem_append_right _ (List.mem_cons_of_mem _ hmem)
    have hne := List.mem_takeWhile_imp hfeed
    simp at hne

theorem lastValue_append (key : List Char) (lines lines' : List (List Char)) :
    lastValue key (lines ++ lines') = (lastValue key lines').or (lastValue key lines) := by
  rw [lastValue, List.filterMap_append, List.reverse_append, List.lookup_append]
  rfl

theorem lastValue_singleton (key line : List Char) : lastValue key [line] =
    (assignment line).bind fun a => if a.1 = key then some a.2 else none := by
  cases hline : assignment line with
  | none => simp [lastValue, hline]
  | some a =>
    obtain ⟨key', value⟩ := a
    rw [lastValue, List.filterMap_cons_some hline, List.filterMap_nil, List.reverse_singleton,
      List.lookup_cons, Option.bind_some]
    by_cases hkey : key' = key
    · rw [hkey, beq_self_eq_true, if_pos rfl]
    · rw [beq_eq_false_iff_ne.mpr (Ne.symm hkey), if_neg hkey]
      rfl

theorem lastValue_eq_none (h : ∀ line ∈ lines, ∀ value, assignment line ≠ some (key, value)) :
    lastValue key lines = none := by
  rw [lastValue, List.lookup_eq_none_iff]
  rintro ⟨key', value⟩ hmem
  obtain ⟨line, hline, hassigned⟩ := List.mem_filterMap.mp (List.mem_reverse.mp hmem)
  refine bne_iff_ne.mpr ?_
  rintro rfl
  exact h line hline value hassigned

theorem exists_of_lastValue (h : lastValue key lines = some value) :
    ∃ line ∈ lines, assignment line = some (key, value) := by
  obtain ⟨before, after, hlines, -⟩ := List.lookup_eq_some_iff.mp h
  have hmem : (key, value) ∈ lines.filterMap assignment := by
    rw [← List.mem_reverse, hlines]
    exact List.mem_append_right _ List.mem_cons_self
  exact List.mem_filterMap.mp hmem

theorem not_mem_of_valueOf {text : List Char} (h : valueOf key text = some value) :
    '\n' ∉ value ∧ '\r' ∉ value := by
  obtain ⟨line, hline, hassigned⟩ := exists_of_lastValue h
  obtain ⟨rest, rfl, -, hfeed⟩ := assignment_eq_some hassigned
  refine ⟨hfeed, fun hreturn => not_mem_universalNewlines text ?_⟩
  rw [← flatten_readlines (universalNewlines text)]
  exact List.mem_flatten.mpr ⟨_, hline,
    List.mem_append_right _ (List.mem_cons_of_mem _ (List.mem_append_left _ hreturn))⟩

theorem valueOf_flatten (h : Lines lines) (hreturn : '\r' ∉ lines.flatten) :
    valueOf key lines.flatten = lastValue key lines := by
  rw [valueOf, universalNewlines_eq_self hreturn, h.readlines_flatten]

end

end KeyValueLines
