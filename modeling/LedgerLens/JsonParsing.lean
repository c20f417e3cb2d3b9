import LedgerLens.JsonText
import Mathlib.Data.List.TakeWhile

/-!
# Reading JSON text

A recursive-descent reader in the manner of Python's `json.loads`. What `Json.render` writes is
read back as the value that was written.
-/
namespace JsonText

def hexValue (c : Char) : Option ℕ :=
  if c.isDigit then some (c.toNat - '0'.toNat)
  else if 'a'.toNat ≤ c.toNat ∧ c.toNat ≤ 'f'.toNat then some (c.toNat - 'a'.toNat + 10)
  else if 'A'.toNat ≤ c.toNat ∧ c.toNat ≤ 'F'.toNat then some (c.toNat - 'A'.toNat + 10)
  else none

/-- The unit that four hexadecimal digits spell. -/
def hexUnit (a b c d : Char) : Option ℕ := do
  let a ← hexValue a
  let b ← hexValue b
  let c ← hexValue c
  let d ← hexValue d
  return 4096 * a + 256 * b + 16 * c + d

theorem hexValue_hexDigit (n : ℕ) : hexValue (hexDigit n) = some (n % 16) := by
  have table : ∀ a < 16, hexValue (Nat.digitChar a) = some a := by decide
  exact table _ (Nat.mod_lt _ (by decide))

theorem hexUnit_hexDigit {n : ℕ} (hn : n < 65536) :
    hexUnit (hexDigit (n / 4096)) (hexDigit (n / 256)) (hexDigit (n / 16)) (hexDigit n) =
      some n := by
  simp only [hexUnit, hexValue_hexDigit, Option.bind_eq_bind, Option.bind_some, Option.pure_def,
    Option.some.injEq]
  omega

/-- The characters of a string literal after its opening quote. Half of a surrogate pair is no
character. -/
def readString : List Char → Option (List Char × List Char)
  | '"' :: s => some ([], s)
  | '\\' :: 'u' :: a :: b :: c :: d :: s => do
    let unit ← hexUnit a b c d
    if 0xd800 ≤ unit ∧ unit < 0xdc00 then
      match s with
      | '\\' :: 'u' :: a :: b :: c :: d :: s => do
        let low ← hexUnit a b c d
        if 0xdc00 ≤ low ∧ low < 0xe000 then
          let (text, s) ← readString s
          return (Char.ofNat (0x10000 + (unit - 0xd800) * 0x400 + (low - 0xdc00)) :: text, s)
        else none
      | _ => none
    else if 0xdc00 ≤ unit ∧ unit < 0xe000 then none
    else
      let (text, s) ← readString s
      return (Char.ofNat unit :: text, s)
  | '\\' :: e :: s => do
    let (_, c) ← (('/', '/') :: shortEscapes).find? fun p => decide (p.1 = e)
    let (text, s) ← readString s
    return (c :: text, s)
  | c :: s => do
    if c.toNat < 0x20 then none
    else
      let (text, s) ← readString s
      return (c :: text, s)
  | [] => none

theorem find?_shortEscapes {e c : Char} (h : (e, c) ∈ shortEscapes) :
    (('/', '/') :: shortEscapes).find? (fun p => decide (p.1 = e)) = some (e, c) := by
  have table : ∀ p ∈ shortEscapes,
      (('/', '/') :: shortEscapes).find? (fun q => decide (q.1 = p.1)) = some p := by decide
  exact table _ h

theorem printable_of_escapeChar {c : Char} (h : escapeChar c = [c]) : 0x20 ≤ c.toNat := by
  have table : ∀ n < 0x20, (escapeChar (Char.ofNat n)).length ≠ 1 := by decide
  by_contra hcontrol
  apply table c.toNat (by omega)
  rw [Char.ofNat_toNat, h]
  rfl

theorem readString_unit {n : ℕ} (hn : n < 65536) (hvalid : n < 0xd800 ∨ 0xe000 ≤ n)
    (s : List Char) : readString (unicodeEscape n ++ s) =
      (readString s).map fun r => (Char.ofNat n :: r.1, r.2) := by
  simp only [unicodeEscape, List.cons_append, List.nil_append]
  rw [readString, hexUnit_hexDigit hn]
  simp only [Option.bind_eq_bind, Option.bind_some]
  rw [if_neg (by omega), if_neg (by omega)]
  cases readString s <;> rfl

theorem readString_pair {high low : ℕ} (hhigh : high < 0x400) (hlow : low < 0x400)
    (s : List Char) :
    readString (unicodeEscape (0xd800 + high) ++ (unicodeEscape (0xdc00 + low) ++ s)) =
      (readString s).map fun r => (Char.ofNat (0x10000 + high * 0x400 + low) :: r.1, r.2) := by
  simp only [unicodeEscape, List.cons_append, List.nil_append]
  rw [readString, hexUnit_hexDigit (by omega)]
  simp only [Option.bind_eq_bind, Option.bind_some]
  rw [if_pos (by omega), hexUnit_hexDigit (by omega)]
  simp only [Option.bind_some]
  rw [if_pos (by omega), Nat.add_sub_cancel_left, Nat.add_sub_cancel_left]
  cases readString s <;> rfl

theorem readString_escapeChar (c : Char) (s : List Char) : readString (escapeChar c ++ s) =
    (readString s).map fun r => (c :: r.1, r.2) := by
  have hvalid := toNat_not_surrogate c
  have hescaped := escapeChar_escaped c
  have hprint := @printable_of_escapeChar c
  generalize escapeChar c = x at hescaped hprint
  cases hescaped with
  | plain hquote hslash =>
    have := hprint rfl
    rw [List.singleton_append, readString.eq_def]
    split
    · simp_all
    · simp_all
    · simp_all
    · rename_i heq
      obtain ⟨rfl, rfl⟩ := List.cons.inj heq
      rw [if_neg (by omega)]
      cases readString s <;> rfl
    · simp_all
  | short e hu hmem =>
    simp only [List.cons_append, List.nil_append]
    rw [readString.eq_def]
    split
    · simp_all
    · simp_all
    · rename_i heq
      simp only [List.cons.injEq, true_and] at heq
      obtain ⟨rfl, rfl⟩ := heq
      rw [find?_shortEscapes hmem]
      cases readString s <;> rfl
    · rename_i hslash heq
      obtain ⟨rfl, rfl⟩ := List.cons.inj heq
      exact absurd rfl (hslash e s rfl)
    · simp_all
  | basic hsmall =>
    rw [readString_unit hsmall (by omega), Char.ofNat_toNat]
  | pair hbig =>
    have hchar : 0x10000 + (c.toNat - 0x10000) / 0x400 * 0x400 + (c.toNat - 0x10000) % 0x400 =
        c.toNat := by omega
    rw [List.append_assoc, readString_pair (by omega) (by omega), hchar, Char.ofNat_toNat]

theorem readString_quote (a : String) (s : List Char) :
    readString (a.toList.flatMap escapeChar ++ '"' :: s) = some (a.toList, s) := by
  induction a.toList with
  | nil => rfl
  | cons c l ih =>
    rw [List.flatMap_cons, List.append_assoc, readString_escapeChar, ih]
    rfl

def isSpace (c : Char) : Bool := c ∈ [' ', '\t', '\n', '\r']

def skipSpace (s : List Char) : List Char := s.dropWhile isSpace

def readNumber (s : List Char) : Option (Json × List Char) :=
  let text := s.takeWhile isNumberChar
  if h : text.head?.any (fun c => c.isDigit || c ∈ ['-', 'N', 'I']) = true then
    some (.number ⟨text, List.all_takeWhile, h⟩, s.dropWhile isNumberChar)
  else none

mutual

def readValue : ℕ → List Char → Option (Json × List Char)
  | 0, _ => none
  | fuel + 1, s =>
    match s with
    | 'n' :: 'u' :: 'l' :: 'l' :: s => some (.null, s)
    | 't' :: 'r' :: 'u' :: 'e' :: s => some (.bool true, s)
    | 'f' :: 'a' :: 'l' :: 's' :: 'e' :: s => some (.bool false, s)
    | '"' :: s => do
      let (text, s) ← readString s
      return (.string (String.ofList text), s)
    | '[' :: s =>
      match skipSpace s with
      | ']' :: s => some (.array .nil, s)
      | s => do
        let (value, s) ← readValue fuel s
        let (rest, s) ← readElements fuel (skipSpace s)
        return (.array (.cons value rest), s)
    | '{' :: s =>
      match skipSpace s with
      | '}' :: s => some (.object .nil, s)
      | s => do
        let (members, s) ← readMember fuel s
        return (.object members, s)
    | s => readNumber s

def readElements : ℕ → List Char → Option (Elements × List Char)
  | 0, _ => none
  | fuel + 1, s =>
    match s with
    | ']' :: s => some (.nil, s)
    | ',' :: s => do
      let (value, s) ← readValue fuel (skipSpace s)
      let (rest, s) ← readElements fuel (skipSpace s)
      return (.cons value rest, s)
    | _ => none

def readMember : ℕ → List Char → Option (Members × List Char)
  | 0, _ => none
  | fuel + 1, s =>
    match s with
    | '"' :: s => do
      let (key, s) ← readString s
      match skipSpace s with
      | ':' :: s => do
        let (value, s) ← readValue fuel (skipSpace s)
        match skipSpace s with
        | '}' :: s => return (.cons (String.ofList key) value .nil, s)
        | ',' :: s => do
          let (rest, s) ← readMember fuel (skipSpace s)
          return (.cons (String.ofList key) value rest, s)
        | _ => none
      | _ => none
    | _ => none

end

/-- `json.loads`: one value, with white space around it. -/
def loads (text : String) : Option Json := do
  let (value, s) ← readValue (text.toList.length + 1) (skipSpace text.toList)
  if skipSpace s = [] then return value else none

/-- The padding is white space. -/
def Separators.Blank (sep : Separators) : Prop :=
  sep.item.all isSpace = true ∧ sep.key.all isSpace = true

theorem Separators.blank_compact : Separators.compact.Blank := ⟨rfl, rfl⟩

theorem skipSpace_append {pad : List Char} (h : pad.all isSpace = true) (s : List Char) :
    skipSpace (pad ++ s) = skipSpace s :=
  List.dropWhile_append_of_pos (by simpa using h)

theorem Json.skipSpace_render (sep : Separators) (v : Json) (s : List Char) :
    skipSpace (v.render sep ++ s) = v.render sep ++ s := by
  cases v with
  | null => rfl
  | bool b => cases b <;> rfl
  | string a => rfl
  | array es => cases es <;> rfl
  | object ms => cases ms <;> rfl
  | number n =>
    obtain ⟨text, chars, start⟩ := n
    cases text with
    | nil => exact absurd start (by decide)
    | cons c rest =>
      have hstart : isNumberChar c = true := List.all_eq_true.mp chars c List.mem_cons_self
      have hspace : isSpace c = false := by
        by_contra hspace
        have hnumber : ([' ', '\t', '\n', '\r'].all fun d => !isNumberChar d) = true := by decide
        have hc := List.all_eq_true.mp hnumber c (of_decide_eq_true (Bool.not_eq_false _ ▸ hspace))
        rw [hstart] at hc
        cases hc
      exact List.dropWhile_cons_of_neg (by simp [hspace])

theorem skipSpace_quote (a : String) (s : List Char) : skipSpace (quote a ++ s) = quote a ++ s :=
  rfl

theorem skipSpace_colon (s : List Char) : skipSpace (':' :: s) = ':' :: s := rfl

theorem Elements.skipSpace_renderMore (sep : Separators) (es : Elements) (s : List Char) :
    skipSpace (es.renderMore sep ++ s) = es.renderMore sep ++ s := by
  cases es <;> rfl

theorem Members.skipSpace_renderMore (sep : Separators) (ms : Members) (s : List Char) :
    skipSpace (ms.renderMore sep ++ s) = ms.renderMore sep ++ s := by
  cases ms <;> rfl

theorem readNumber_text (n : NumberText) {s : List Char} (hs : Delimited s) :
    readNumber (n.text ++ s) = some (.number n, s) := by
  have hall : ∀ c ∈ n.text, isNumberChar c = true := List.all_eq_true.mp n.chars
  have hrest : s.takeWhile isNumberChar = [] ∧ s.dropWhile isNumberChar = s := by
    cases s with
    | nil => exact ⟨rfl, rfl⟩
    | cons c s => simp_all [Delimited]
  have htake : (n.text ++ s).takeWhile isNumberChar = n.text := by
    rw [List.takeWhile_append_of_pos hall, hrest.1, List.append_nil]
  have hdrop : (n.text ++ s).dropWhile isNumberChar = s := by
    rw [List.dropWhile_append_of_pos hall, hrest.2]
  unfold readNumber
  simp only [htake, hdrop, n.start, dite_true]

theorem readValue_number (fuel : ℕ) (n : NumberText) {s : List Char} (hs : Delimited s) :
    readValue (fuel + 1) (n.text ++ s) = some (.number n, s) := by
  obtain ⟨c, rest, htext, hc⟩ := (Json.number n).render_lead .compact
  rw [Json.render] at htext
  have hread := readNumber_text n hs
  rw [htext, List.cons_append] at hread ⊢
  rw [readValue, hread]
  all_goals
    intro s' heq
    obtain rfl := (List.cons.inj heq).1
    cases hc

def Members.renderFirst (sep : Separators) : Members → List Char
  | .nil => ['}']
  | .cons key value rest =>
    quote key ++ ':' :: (sep.key ++ (value.render sep ++ rest.renderMore sep))

mutual

theorem readValue_render {sep : Separators} (hsep : sep.Blank) : (v : Json) → (n : ℕ) →
    {s : List Char} → Delimited s → (v.render sep ++ s).length < n →
    readValue n (v.render sep ++ s) = some (v, s)
  | _, 0, _, _, hlen => absurd hlen (Nat.not_lt_zero _)
  | .null, _ + 1, _, _, _ => rfl
  | .bool true, _ + 1, _, _, _ => rfl
  | .bool false, _ + 1, _, _, _ => rfl
  | .number m, n + 1, _, hs, _ => readValue_number n m hs
  | .string a, n + 1, s, _, _ => by
    simp only [Json.render, quote, List.cons_append, List.append_assoc, List.nil_append]
    rw [readValue, readString_quote]
    simp [String.ofList]
  | .array .nil, _ + 1, _, _, _ => rfl
  | .array (.cons value rest), n + 1, s, _, hlen => by
    simp only [Json.render, List.cons_append, List.append_assoc] at hlen ⊢
    rw [List.length_cons] at hlen
    rw [readValue, Json.skipSpace_render]
    split
    · rename_i heq
      exact absurd heq Json.render_ne_close
    · rw [readValue_render hsep value n (rest.renderMore_delimited sep s) (by omega)]
      simp only [Option.bind_eq_bind, Option.bind_some]
      rw [List.length_append] at hlen
      rw [Elements.skipSpace_renderMore, readElements_render hsep rest n (by omega)]
      rfl
  | .object .nil, _ + 1, _, _, _ => rfl
  | .object (.cons key value rest), n + 1, s, _, hlen => by
    have hmember := @readMember_render sep hsep (.cons key value rest) n s nofun
      (Nat.lt_of_succ_lt_succ hlen)
    simp only [Members.renderFirst, List.cons_append, List.append_assoc] at hmember
    simp only [Json.render, List.cons_append, List.append_assoc]
    rw [readValue, skipSpace_quote]
    split
    · rename_i heq
      cases heq
    · rw [hmember]
      rfl

theorem readElements_render {sep : Separators} (hsep : sep.Blank) : (es : Elements) → (n : ℕ) →
    {s : List Char} → (es.renderMore sep ++ s).length < n →
    readElements n (es.renderMore sep ++ s) = some (es, s)
  | _, 0, _, hlen => absurd hlen (Nat.not_lt_zero _)
  | .nil, _ + 1, _, _ => rfl
  | .cons value rest, n + 1, s, hlen => by
    simp only [Elements.renderMore, List.cons_append, List.append_assoc, List.length_cons,
      List.length_append] at hlen ⊢
    rw [readElements, skipSpace_append hsep.1, Json.skipSpace_render,
      readValue_render hsep value n (rest.renderMore_delimited sep s) (by
        simp only [List.length_append]
        omega)]
    simp only [Option.bind_eq_bind, Option.bind_some]
    rw [Elements.skipSpace_renderMore, readElements_render hsep rest n (by
      simp only [List.length_append]
      omega)]
    rfl

theorem readMember_render {sep : Separators} (hsep : sep.Blank) : (ms : Members) → (n : ℕ) →
    {s : List Char} → ms ≠ .nil → (ms.renderFirst sep ++ s).length < n →
    readMember n (ms.renderFirst sep ++ s) = some (ms, s)
  | _, 0, _, _, hlen => absurd hlen (Nat.not_lt_zero _)
  | .nil, _ + 1, _, hne, _ => absurd rfl hne
  | .cons key value rest, n + 1, s, _, hlen => by
    simp only [Members.renderFirst, quote, List.cons_append, List.append_assoc, List.nil_append,
      List.length_cons, List.length_append] at hlen ⊢
    rw [readMember, readString_quote]
    simp only [Option.bind_eq_bind, Option.bind_some]
    simp only [skipSpace_colon, skipSpace_append hsep.2, Json.skipSpace_render]
    rw [readValue_render hsep value n (rest.renderMore_delimited sep s) (by
      simp only [List.length_append]
      omega)]
    simp only [Option.bind_some, Members.skipSpace_renderMore]
    cases rest with
    | nil => simp [Members.renderMore]
    | cons key' value' rest =>
      have hmember := @readMember_render sep hsep (.cons key' value' rest) n s nofun (by
        simp only [Members.renderMore, Members.renderFirst, List.cons_append, List.append_assoc,
          List.length_cons, List.length_append] at hlen ⊢
        omega)
      simp only [Members.renderFirst, List.cons_append, List.append_assoc] at hmember
      simp only [Members.renderMore, List.cons_append, List.append_assoc,
        skipSpace_append hsep.1, skipSpace_quote]
      rw [hmember]
      simp

end

/-- What `json.dumps` writes is read back as the same value. -/
theorem loads_render {sep : Separators} (hsep : sep.Blank) (v : Json) :
    loads (String.ofList (v.render sep)) = some v := by
  have hread := readValue_render hsep v ((v.render sep).length + 1) (s := []) rfl (by simp)
  have hskip := v.skipSpace_render sep []
  rw [List.append_nil] at hread hskip
  unfold loads
  rw [String.toList_ofList, hskip, hread]
  rfl

-- White space goes, an escaped character that needs no escape is written plainly.
example : (loads " [ 1 , \x7b\"a\" : \"\\u0062\\ud83d\\ude00\"\x7d ] ").map
    (fun v => v.render .compact) =
    some "[1,\x7b\"a\":\"b\\ud83d\\ude00\"\x7d]".toList := by
  decide +kernel

end JsonText
