import Mathlib.Data.List.Basic
import Mathlib.Data.Nat.Digits.Lemmas

/-!
# Canonical JSON text

Python's `json.dumps` with `ensure_ascii`: strings are quoted and escaped to ASCII, numbers are
written by their own text, members in the order given. The text determines the value.
-/
namespace JsonText

def hexDigit (n : ℕ) : Char := Nat.digitChar (n % 16)

/-- `\uXXXX` of one UTF-16 unit. -/
def unicodeEscape (unit : ℕ) : List Char :=
  ['\\', 'u', hexDigit (unit / 4096), hexDigit (unit / 256), hexDigit (unit / 16), hexDigit unit]

/-- Characters outside the basic plane are written as a surrogate pair. -/
def escapeChar (c : Char) : List Char :=
  if c = '"' then ['\\', '"']
  else if c = '\\' then ['\\', '\\']
  else if c = '\n' then ['\\', 'n']
  else if c = '\r' then ['\\', 'r']
  else if c = '\t' then ['\\', 't']
  else if c = '\x0c' then ['\\', 'f']
  else if c = '\x08' then ['\\', 'b']
  else if 0x20 ≤ c.toNat ∧ c.toNat ≤ 0x7e then [c]
  else if c.toNat < 0x10000 then unicodeEscape c.toNat
  else
    unicodeEscape (0xd800 + (c.toNat - 0x10000) / 0x400) ++
      unicodeEscape (0xdc00 + (c.toNat - 0x10000) % 0x400)

def quote (s : String) : List Char := '"' :: (s.toList.flatMap escapeChar ++ ['"'])

theorem hexDigit_inj {m n : ℕ} (h : hexDigit m = hexDigit n) : m % 16 = n % 16 := by
  have table : ∀ a < 16, ∀ b < 16, Nat.digitChar a = Nat.digitChar b → a = b := by decide
  exact table _ (Nat.mod_lt _ (by decide)) _ (Nat.mod_lt _ (by decide)) h

theorem unicodeEscape_append_inj {m n : ℕ} (hm : m < 65536) (hn : n < 65536) {s t : List Char}
    (h : unicodeEscape m ++ s = unicodeEscape n ++ t) : m = n ∧ s = t := by
  simp only [unicodeEscape, List.cons_append, List.nil_append, List.cons.injEq, true_and] at h
  obtain ⟨h₃, h₂, h₁, h₀, rest⟩ := h
  have h₃ := hexDigit_inj h₃
  have h₂ := hexDigit_inj h₂
  have h₁ := hexDigit_inj h₁
  have h₀ := hexDigit_inj h₀
  exact ⟨by omega, rest⟩

def shortEscapes : List (Char × Char) := [('"', '"'), ('\\', '\\'), ('n', '\n'), ('r', '\r'),
  ('t', '\t'), ('f', '\x0c'), ('b', '\x08')]

theorem shortEscapes_functional :
    ∀ p ∈ shortEscapes, ∀ q ∈ shortEscapes, p.1 = q.1 → p.2 = q.2 := by
  decide

inductive Escaped (c : Char) : List Char → Prop where
  | plain : c ≠ '"' → c ≠ '\\' → Escaped c [c]
  | short (e : Char) : e ≠ 'u' → (e, c) ∈ shortEscapes → Escaped c ['\\', e]
  | basic : c.toNat < 0x10000 → Escaped c (unicodeEscape c.toNat)
  | pair : 0x10000 ≤ c.toNat → Escaped c
      (unicodeEscape (0xd800 + (c.toNat - 0x10000) / 0x400) ++
        unicodeEscape (0xdc00 + (c.toNat - 0x10000) % 0x400))

theorem escapeChar_escaped (c : Char) : Escaped c (escapeChar c) := by
  unfold escapeChar
  split_ifs with h₁ h₂ h₃ h₄ h₅ h₆ h₇ h₈ h₉
  · exact .short '"' (by decide) (by simp [shortEscapes, h₁])
  · exact .short '\\' (by decide) (by simp [shortEscapes, h₂])
  · exact .short 'n' (by decide) (by simp [shortEscapes, h₃])
  · exact .short 'r' (by decide) (by simp [shortEscapes, h₄])
  · exact .short 't' (by decide) (by simp [shortEscapes, h₅])
  · exact .short 'f' (by decide) (by simp [shortEscapes, h₆])
  · exact .short 'b' (by decide) (by simp [shortEscapes, h₇])
  · exact .plain h₁ h₂
  · exact .basic h₉
  · exact .pair (not_lt.mp h₉)

theorem toNat_not_surrogate (c : Char) : c.toNat < 0xd800 ∨ 0xdfff < c.toNat ∧ c.toNat < 0x110000 :=
  c.valid

/-- Escaped characters form a prefix code. -/
theorem escapeChar_append_inj {c d : Char} {s t : List Char}
    (h : escapeChar c ++ s = escapeChar d ++ t) : c = d ∧ s = t := by
  have hvalid := toNat_not_surrogate c
  have hvalid' := toNat_not_surrogate d
  have hc := escapeChar_escaped c
  have hd := escapeChar_escaped d
  revert h
  generalize escapeChar c = x at hc
  generalize escapeChar d = y at hd
  intro h
  cases hc with
  | plain hquote hslash =>
    cases hd with
    | plain => simpa using h
    | short => exact absurd (List.cons.inj h).1 hslash
    | basic => exact absurd (List.cons.inj h).1 hslash
    | pair => exact absurd (List.cons.inj h).1 hslash
  | short e hu hmem =>
    cases hd with
    | plain hquote hslash => exact absurd (List.cons.inj h).1.symm hslash
    | short e' hu' hmem' =>
      simp only [List.cons_append, List.nil_append, List.cons.injEq, true_and] at h
      obtain ⟨rfl, rest⟩ := h
      exact ⟨shortEscapes_functional _ hmem _ hmem' rfl, rest⟩
    | basic =>
      simp only [unicodeEscape, List.cons_append, List.cons.injEq, true_and] at h
      exact absurd h.1 hu
    | pair =>
      simp only [unicodeEscape, List.cons_append, List.cons.injEq, true_and] at h
      exact absurd h.1 hu
  | basic hsmall =>
    cases hd with
    | plain hquote hslash => exact absurd (List.cons.inj h).1.symm hslash
    | short e' hu' =>
      simp only [unicodeEscape, List.cons_append, List.cons.injEq, true_and] at h
      exact absurd h.1.symm hu'
    | basic hsmall' =>
      obtain ⟨heq, rest⟩ := unicodeEscape_append_inj (by omega) (by omega) h
      exact ⟨Char.toNat_inj.mp heq, rest⟩
    | pair hbig =>
      rw [List.append_assoc] at h
      obtain ⟨heq, -⟩ := unicodeEscape_append_inj (by omega) (by omega) h
      omega
  | pair hbig =>
    cases hd with
    | plain hquote hslash => exact absurd (List.cons.inj h).1.symm hslash
    | short e' hu' =>
      simp only [unicodeEscape, List.cons_append, List.cons.injEq, true_and] at h
      exact absurd h.1.symm hu'
    | basic hsmall =>
      rw [List.append_assoc] at h
      obtain ⟨heq, -⟩ := unicodeEscape_append_inj (by omega) (by omega) h
      omega
    | pair hbig' =>
      rw [List.append_assoc, List.append_assoc] at h
      obtain ⟨hhigh, h⟩ := unicodeEscape_append_inj (by omega) (by omega) h
      obtain ⟨hlow, rest⟩ := unicodeEscape_append_inj (by omega) (by omega) h
      exact ⟨Char.toNat_inj.mp (by omega), rest⟩

theorem escapeChar_head (c : Char) : ∃ e rest, escapeChar c = e :: rest ∧ e ≠ '"' := by
  have hc := escapeChar_escaped c
  revert hc
  generalize escapeChar c = x
  intro hc
  cases hc with
  | plain hquote => exact ⟨c, [], rfl, hquote⟩
  | short e => exact ⟨'\\', [e], rfl, by decide⟩
  | basic => exact ⟨'\\', _, rfl, by decide⟩
  | pair => exact ⟨'\\', _, rfl, by decide⟩

theorem escaped_append_inj {l m s t : List Char}
    (h : l.flatMap escapeChar ++ '"' :: s = m.flatMap escapeChar ++ '"' :: t) :
    l = m ∧ s = t := by
  induction l generalizing m with
  | nil =>
    cases m with
    | nil => exact ⟨rfl, (List.cons.inj h).2⟩
    | cons d m =>
      obtain ⟨e, rest, he, hquote⟩ := escapeChar_head d
      rw [List.flatMap_nil, List.nil_append, List.flatMap_cons, he] at h
      exact absurd (List.cons.inj h).1.symm hquote
  | cons c l ih =>
    cases m with
    | nil =>
      obtain ⟨e, rest, he, hquote⟩ := escapeChar_head c
      rw [List.flatMap_nil, List.nil_append, List.flatMap_cons, he] at h
      exact absurd (List.cons.inj h).1 hquote
    | cons d m =>
      rw [List.flatMap_cons, List.flatMap_cons, List.append_assoc, List.append_assoc] at h
      obtain ⟨rfl, htail⟩ := escapeChar_append_inj h
      obtain ⟨rfl, rest⟩ := ih htail
      exact ⟨rfl, rest⟩

theorem quote_append_inj {a b : String} {s t : List Char} (h : quote a ++ s = quote b ++ t) :
    a = b ∧ s = t := by
  simp only [quote, List.cons_append, List.append_assoc, List.nil_append, List.cons.injEq,
    true_and] at h
  obtain ⟨hlist, rest⟩ := escaped_append_inj h
  exact ⟨String.ext hlist, rest⟩

def isNumberChar (c : Char) : Bool :=
  c.isDigit || c ∈ ['-', '+', '.', 'e', 'N', 'a', 'I', 'n', 'f', 'i', 't', 'y']

/-- The text of an integer or a float, as `repr` or the JSON encoder writes it. -/
structure NumberText where
  text : List Char
  chars : text.all isNumberChar = true
  start : text.head?.any (fun c => c.isDigit || c ∈ ['-', 'N', 'I']) = true
  deriving DecidableEq

def intText (i : ℤ) : List Char :=
  if i < 0 then '-' :: Nat.toDigits 10 i.natAbs else Nat.toDigits 10 i.natAbs

theorem toDigits_inj {m n : ℕ} (h : Nat.toDigits 10 m = Nat.toDigits 10 n) : m = n := by
  rw [← @Nat.ofDigitChars_ten_toDigits m, h, Nat.ofDigitChars_ten_toDigits]

theorem isDigit_of_mem {n : ℕ} {c : Char} (h : c ∈ Nat.toDigits 10 n) : c.isDigit = true :=
  Nat.isDigit_of_mem_toDigits (by decide) (by decide) h

theorem toDigits_head (n : ℕ) : ∃ c rest, Nat.toDigits 10 n = c :: rest ∧ c.isDigit = true := by
  cases hdigits : Nat.toDigits 10 n with
  | nil => exact absurd hdigits Nat.toDigits_ne_nil
  | cons c rest => exact ⟨c, rest, rfl, isDigit_of_mem (hdigits ▸ List.mem_cons_self)⟩

theorem intText_inj {i j : ℤ} (h : intText i = intText j) : i = j := by
  obtain ⟨c, rest, hi, hc⟩ := toDigits_head i.natAbs
  obtain ⟨d, rest', hj, hd⟩ := toDigits_head j.natAbs
  have sign {e : Char} (he : e.isDigit = true) : e ≠ '-' := by
    rintro rfl
    exact absurd he (by decide)
  unfold intText at h
  split_ifs at h with hneg hneg' hneg'
  · have := toDigits_inj (List.cons.inj h).2
    omega
  · rw [hj] at h
    exact absurd (List.cons.inj h).1.symm (sign hd)
  · rw [hi] at h
    exact absurd (List.cons.inj h).1 (sign hc)
  · have := toDigits_inj h
    omega

def NumberText.ofInt (i : ℤ) : NumberText where
  text := intText i
  chars := by
    have hall : (Nat.toDigits 10 i.natAbs).all isNumberChar = true := by
      rw [List.all_eq_true]
      intro c hc
      simp [isNumberChar, isDigit_of_mem hc]
    unfold intText
    split_ifs
    · simpa [isNumberChar] using hall
    · exact hall
  start := by
    obtain ⟨c, rest, hdigits, hc⟩ := toDigits_head i.natAbs
    unfold intText
    split_ifs
    · rfl
    · simp [hdigits, hc]

theorem NumberText.ofInt_inj {i j : ℤ} (h : NumberText.ofInt i = NumberText.ofInt j) : i = j :=
  intText_inj (congrArg NumberText.text h)

/-- What may follow a value: nothing, or a character of no number. -/
def Delimited (s : List Char) : Prop := s.head?.all (fun c => !isNumberChar c) = true

theorem number_append_inj {l m s t : List Char} (hl : l.all isNumberChar = true)
    (hm : m.all isNumberChar = true) (hs : Delimited s) (ht : Delimited t)
    (h : l ++ s = m ++ t) : l = m ∧ s = t := by
  induction l generalizing m with
  | nil =>
    cases m with
    | nil => exact ⟨rfl, h⟩
    | cons d m =>
      rw [List.nil_append] at h
      subst h
      simp_all [Delimited]
  | cons c l ih =>
    cases m with
    | nil =>
      rw [List.nil_append] at h
      subst h
      simp_all [Delimited]
    | cons d m =>
      obtain ⟨rfl, htail⟩ := List.cons.inj h
      simp only [List.all_cons, Bool.and_eq_true] at hl hm
      obtain ⟨rfl, rest⟩ := ih hl.2 hm.2 htail
      exact ⟨rfl, rest⟩

mutual

inductive Json where
  | null
  | bool (b : Bool)
  | number (n : NumberText)
  | string (s : String)
  | array (elements : Elements)
  | object (members : Members)

inductive Elements where
  | nil
  | cons (value : Json) (rest : Elements)

inductive Members where
  | nil
  | cons (key : String) (value : Json) (rest : Members)

end

/-- The padding after a comma and after a colon. -/
structure Separators where
  item : List Char
  key : List Char

def Separators.compact : Separators := ⟨[], []⟩

def Separators.default : Separators := ⟨[' '], [' ']⟩

mutual

def Json.render (sep : Separators) : Json → List Char
  | .null => ['n', 'u', 'l', 'l']
  | .bool true => ['t', 'r', 'u', 'e']
  | .bool false => ['f', 'a', 'l', 's', 'e']
  | .number n => n.text
  | .string s => quote s
  | .array .nil => ['[', ']']
  | .array (.cons value rest) => '[' :: (value.render sep ++ rest.renderMore sep)
  | .object .nil => ['{', '}']
  | .object (.cons key value rest) =>
    '{' :: (quote key ++ ':' :: (sep.key ++ (value.render sep ++ rest.renderMore sep)))

def Elements.renderMore (sep : Separators) : Elements → List Char
  | .nil => [']']
  | .cons value rest => ',' :: (sep.item ++ (value.render sep ++ rest.renderMore sep))

def Members.renderMore (sep : Separators) : Members → List Char
  | .nil => ['}']
  | .cons key value rest =>
    ',' :: (sep.item ++ (quote key ++ ':' :: (sep.key ++
      (value.render sep ++ rest.renderMore sep))))

end

def Members.ofList : List (String × Json) → Members
  | [] => .nil
  | (key, value) :: rest => .cons key value (ofList rest)

theorem Members.ofList_inj {l m : List (String × Json)} (h : ofList l = ofList m) : l = m := by
  induction l generalizing m with
  | nil =>
    cases m with
    | nil => rfl
    | cons => cases h
  | cons a l ih =>
    cases m with
    | nil => cases h
    | cons b m =>
      obtain ⟨hkey, hvalue, hrest⟩ := Members.cons.inj h
      rw [ih hrest, Prod.ext hkey hvalue]

def Members.toList : Members → List (String × Json)
  | .nil => []
  | .cons key value rest => (key, value) :: rest.toList

@[simp] theorem Members.toList_ofList (l : List (String × Json)) : (ofList l).toList = l := by
  induction l with
  | nil => rfl
  | cons a l ih => rw [ofList, toList, ih]

def leadKind (c : Char) : ℕ :=
  if c = 'n' then 0 else if c = 't' then 1 else if c = 'f' then 2 else if c = '"' then 3
  else if c = '{' then 4 else if c = '[' then 6 else if c = ']' then 7 else 5

def Json.kind : Json → ℕ
  | .null => 0
  | .bool true => 1
  | .bool false => 2
  | .string _ => 3
  | .object _ => 4
  | .number _ => 5
  | .array _ => 6

theorem Json.render_lead (sep : Separators) (v : Json) :
    ∃ c rest, v.render sep = c :: rest ∧ leadKind c = v.kind := by
  cases v with
  | null => exact ⟨_, _, rfl, rfl⟩
  | bool b => cases b <;> exact ⟨_, _, rfl, rfl⟩
  | string s => exact ⟨_, _, rfl, rfl⟩
  | array es => cases es <;> exact ⟨_, _, rfl, rfl⟩
  | object ms => cases ms <;> exact ⟨_, _, rfl, rfl⟩
  | number n =>
    obtain ⟨text, chars, start⟩ := n
    cases text with
    | nil => exact absurd start (by decide)
    | cons c rest =>
      refine ⟨c, rest, rfl, ?_⟩
      have hstart : (c.isDigit || c ∈ ['-', 'N', 'I']) = true := by simpa using start
      unfold leadKind
      split_ifs with hn ht hf hq ho ha hb
      · exact absurd (hn ▸ hstart) (by decide)
      · exact absurd (ht ▸ hstart) (by decide)
      · exact absurd (hf ▸ hstart) (by decide)
      · exact absurd (hq ▸ hstart) (by decide)
      · exact absurd (ho ▸ hstart) (by decide)
      · exact absurd (ha ▸ hstart) (by decide)
      · exact absurd (hb ▸ hstart) (by decide)
      · rfl

theorem Json.kind_eq_of_render {sep : Separators} {v w : Json} {s t : List Char}
    (h : v.render sep ++ s = w.render sep ++ t) : v.kind = w.kind := by
  obtain ⟨c, rest, hv, hc⟩ := v.render_lead sep
  obtain ⟨d, rest', hw, hd⟩ := w.render_lead sep
  rw [hv, hw] at h
  rw [← hc, ← hd, (List.cons.inj h).1]

theorem Json.render_ne_close {sep : Separators} {v : Json} {s t : List Char} :
    v.render sep ++ s ≠ ']' :: t := by
  intro h
  obtain ⟨c, rest, hv, hc⟩ := v.render_lead sep
  rw [hv] at h
  obtain rfl : c = ']' := (List.cons.inj h).1
  cases v with
  | bool b => cases b <;> cases hc
  | _ => cases hc

theorem Elements.renderMore_delimited (sep : Separators) (es : Elements) (s : List Char) :
    Delimited (es.renderMore sep ++ s) := by
  cases es <;> rfl

theorem Members.renderMore_delimited (sep : Separators) (ms : Members) (s : List Char) :
    Delimited (ms.renderMore sep ++ s) := by
  cases ms <;> rfl

mutual

/-- A rendered value ends where its text says it does. -/
theorem Json.render_append_inj (sep : Separators) : (v w : Json) → {s t : List Char} →
    Delimited s → Delimited t → v.render sep ++ s = w.render sep ++ t → v = w ∧ s = t
  | .null, w, _, _, _, _, h => by
    have hkind := Json.kind_eq_of_render h
    cases w with
    | null => exact ⟨rfl, List.append_cancel_left h⟩
    | bool b => cases b <;> cases hkind
    | _ => cases hkind
  | .bool b, w, _, _, _, _, h => by
    have hkind := Json.kind_eq_of_render h
    cases w with
    | bool b' =>
      obtain rfl : b = b' := by cases b <;> cases b' <;> first | rfl | cases hkind
      exact ⟨rfl, List.append_cancel_left h⟩
    | _ => cases b <;> cases hkind
  | .number n, w, _, _, hs, ht, h => by
    have hkind := Json.kind_eq_of_render h
    cases w with
    | number n' =>
      obtain ⟨htext, rest⟩ := number_append_inj n.chars n'.chars hs ht h
      cases n
      cases n'
      subst htext
      exact ⟨rfl, rest⟩
    | bool b => cases b <;> cases hkind
    | _ => cases hkind
  | .string a, w, _, _, _, _, h => by
    have hkind := Json.kind_eq_of_render h
    cases w with
    | string b =>
      obtain ⟨rfl, rest⟩ := quote_append_inj h
      exact ⟨rfl, rest⟩
    | bool b => cases b <;> cases hkind
    | _ => cases hkind
  | .array .nil, w, _, _, _, _, h => by
    have hkind := Json.kind_eq_of_render h
    cases w with
    | array es =>
      cases es with
      | nil => exact ⟨rfl, List.append_cancel_left h⟩
      | cons value more =>
        simp only [Json.render, List.cons_append, List.append_assoc, List.cons.injEq,
          true_and] at h
        exact absurd h.symm Json.render_ne_close
    | bool b => cases b <;> cases hkind
    | _ => cases hkind
  | .array (.cons value more), w, _, _, _, _, h => by
    have hkind := Json.kind_eq_of_render h
    cases w with
    | array es =>
      cases es with
      | nil =>
        simp only [Json.render, List.cons_append, List.append_assoc, List.cons.injEq,
          true_and] at h
        exact absurd h Json.render_ne_close
      | cons value' more' =>
        simp only [Json.render, List.cons_append, List.append_assoc, List.cons.injEq,
          true_and] at h
        obtain ⟨rfl, hmore⟩ := Json.render_append_inj sep value value'
          (more.renderMore_delimited sep _) (more'.renderMore_delimited sep _) h
        obtain ⟨rfl, rest⟩ := Elements.renderMore_append_inj sep more more' hmore
        exact ⟨rfl, rest⟩
    | bool b => cases b <;> cases hkind
    | _ => cases hkind
  | .object .nil, w, _, _, _, _, h => by
    have hkind := Json.kind_eq_of_render h
    cases w with
    | object ms =>
      cases ms with
      | nil => exact ⟨rfl, List.append_cancel_left h⟩
      | cons => cases (List.cons.inj h).2
    | bool b => cases b <;> cases hkind
    | _ => cases hkind
  | .object (.cons key value more), w, _, _, _, _, h => by
    have hkind := Json.kind_eq_of_render h
    cases w with
    | object ms =>
      cases ms with
      | nil => cases (List.cons.inj h).2
      | cons key' value' more' =>
        simp only [Json.render, List.cons_append, List.append_assoc, List.cons.injEq,
          true_and] at h
        obtain ⟨rfl, hcolon⟩ := quote_append_inj h
        have hvalue := List.append_cancel_left (List.cons.inj hcolon).2
        obtain ⟨rfl, hmore⟩ := Json.render_append_inj sep value value'
          (more.renderMore_delimited sep _) (more'.renderMore_delimited sep _) hvalue
        obtain ⟨rfl, rest⟩ := Members.renderMore_append_inj sep more more' hmore
        exact ⟨rfl, rest⟩
    | bool b => cases b <;> cases hkind
    | _ => cases hkind

theorem Elements.renderMore_append_inj (sep : Separators) : (es fs : Elements) →
    {s t : List Char} → es.renderMore sep ++ s = fs.renderMore sep ++ t → es = fs ∧ s = t
  | .nil, fs, _, _, h => by
    cases fs with
    | nil => exact ⟨rfl, List.append_cancel_left h⟩
    | cons => cases (List.cons.inj h).1
  | .cons value more, fs, _, _, h => by
    cases fs with
    | nil => cases (List.cons.inj h).1
    | cons value' more' =>
      simp only [Elements.renderMore, List.cons_append, List.append_assoc, List.cons.injEq,
        true_and] at h
      have hvalue := List.append_cancel_left h
      obtain ⟨rfl, hmore⟩ := Json.render_append_inj sep value value'
        (more.renderMore_delimited sep _) (more'.renderMore_delimited sep _) hvalue
      obtain ⟨rfl, rest⟩ := Elements.renderMore_append_inj sep more more' hmore
      exact ⟨rfl, rest⟩

theorem Members.renderMore_append_inj (sep : Separators) : (ms ns : Members) → {s t : List Char} →
    ms.renderMore sep ++ s = ns.renderMore sep ++ t → ms = ns ∧ s = t
  | .nil, ns, _, _, h => by
    cases ns with
    | nil => exact ⟨rfl, List.append_cancel_left h⟩
    | cons => cases (List.cons.inj h).1
  | .cons key value more, ns, _, _, h => by
    cases ns with
    | nil => cases (List.cons.inj h).1
    | cons key' value' more' =>
      simp only [Members.renderMore, List.cons_append, List.append_assoc, List.cons.injEq,
        true_and] at h
      obtain ⟨rfl, hcolon⟩ := quote_append_inj (List.append_cancel_left h)
      have hvalue := List.append_cancel_left (List.cons.inj hcolon).2
      obtain ⟨rfl, hmore⟩ := Json.render_append_inj sep value value'
        (more.renderMore_delimited sep _) (more'.renderMore_delimited sep _) hvalue
      obtain ⟨rfl, rest⟩ := Members.renderMore_append_inj sep more more' hmore
      exact ⟨rfl, rest⟩

end

theorem Json.render_inj {sep : Separators} {v w : Json} (h : v.render sep = w.render sep) :
    v = w :=
  (Json.render_append_inj sep v w (s := []) (t := []) rfl rfl (congrArg (· ++ []) h)).1

-- Escapes, a nested object and both kinds of scalar.
example : String.ofList ((Json.object (Members.ofList [("a\n", .number (.ofInt (-12))),
      ("é", .object (Members.ofList [("b", .null), ("c", .string "\"")]))])).render .default) =
    "\x7b\"a\\n\": -12, \"\\u00e9\": \x7b\"b\": null, \"c\": \"\\\"\"\x7d\x7d" := by
  decide +kernel

end JsonText
