import SdlGraph.Text.Hexadecimal

/-!
# Escapes of quoted strings

After a backslash stands a letter or mark that names a character, or a `u` with four hexadecimal
digits, with two such groups for a surrogate pair, or with one to six digits in braces. Reading an
escape ends in a character, in an unknown escape, or in a malformed one together with the number of
characters, all of them ASCII, up to where reading stopped.
-/

namespace SdlGraph.Escape

open Text

/-- Four hexadecimal digits and what follows them. -/
def fourDigits? : List Char → Option (Nat × List Char)
  | a :: b :: c :: d :: rest =>
    if [a, b, c, d].all isHexDigit then some (hexNumber [a, b, c, d], rest) else none
  | _ => none

/-- Whether a number is that of a leading surrogate. -/
def isLeading (n : Nat) : Bool := 0xD800 ≤ n && n ≤ 0xDBFF

/-- Whether a number is that of a trailing surrogate. -/
def isTrailing (n : Nat) : Bool := 0xDC00 ≤ n && n ≤ 0xDFFF

/-- The number of the character that a surrogate pair stands for. -/
def joinSurrogates (leading trailing : Nat) : Nat :=
  0x10000 + (leading - 0xD800) * 0x400 + (trailing - 0xDC00)

/-- The outcome of reading an escape. -/
inductive Reading where
  /-- The escape names this character; the rest of the text follows it. -/
  | char (value : Char) (rest : List Char)
  /-- No escape starts with what follows the backslash. -/
  | unknown
  /-- A unicode escape went wrong this many characters after the start of its backslash. -/
  | malformed (length : Nat)
  deriving DecidableEq, Repr

/-- A character number in braces, with one to six digits. -/
def braced? : List Char → Option (Char × List Char)
  | c :: rest =>
    let digits := rest.takeWhile isHexDigit
    match c, rest.dropWhile isHexDigit with
    | '\x7b', '\x7d' :: after =>
      if 1 ≤ digits.length ∧ digits.length ≤ 6 then
        (scalar? (hexNumber digits)).map (·, after)
      else none
    | _, _ => none
  | [] => none

/-- A group of four digits, or two groups that form a surrogate pair. -/
def readFixed (text : List Char) : Reading :=
  match fourDigits? text with
  | none => .malformed 2
  | some (leading, rest) =>
    if isLeading leading then
      match rest with
      | '\\' :: 'u' :: second =>
        match fourDigits? second with
        | none => .malformed 8
        | some (trailing, after) =>
          match isTrailing trailing, scalar? (joinSurrogates leading trailing) with
          | true, some c => .char c after
          | _, _ => .malformed 6
      | _ => .malformed 6
    else
      match scalar? leading with
      | some c => .char c rest
      | none => .malformed 6

/-- The character named by a letter or mark after a backslash. -/
def simple? : Char → Option Char
  | '"' => some '"'
  | '\\' => some '\\'
  | '/' => some '/'
  | 'b' => some '\x08'
  | 'f' => some '\x0c'
  | 'n' => some '\n'
  | 'r' => some '\r'
  | 't' => some '\t'
  | _ => none

/-- Read the escape that follows a backslash. -/
def read : List Char → Reading
  | c :: rest =>
    if c = 'u' then
      match braced? rest with
      | some (value, after) => .char value after
      | none => readFixed rest
    else
      match simple? c with
      | some value => .char value rest
      | none => .unknown
  | [] => .unknown

theorem fourDigits?_suffix {text rest : List Char} {n : Nat}
    (h : fourDigits? text = some (n, rest)) : rest <:+ text := by
  unfold fourDigits? at h
  split at h
  next a b c d after =>
    simp only [Option.ite_none_right_eq_some, Option.some.injEq, Prod.mk.injEq] at h
    exact h.2.2 ▸ ⟨[a, b, c, d], rfl⟩
  · exact absurd h (by simp)

theorem braced?_suffix {text rest : List Char} {value : Char}
    (h : braced? text = some (value, rest)) : rest <:+ text := by
  unfold braced? at h
  split at h
  next c tail =>
    simp only at h
    split at h
    next after hd =>
      simp only [Option.ite_none_right_eq_some, Option.map_eq_some_iff, Prod.mk.injEq] at h
      obtain ⟨_, _, _, _, rfl⟩ := h
      have : after <:+ tail.dropWhile isHexDigit := hd ▸ List.suffix_cons ..
      exact (this.trans (List.dropWhile_suffix _)).trans (List.suffix_cons ..)
    · exact absurd h (by simp)
  · exact absurd h (by simp)

theorem readFixed_suffix {text rest : List Char} {value : Char}
    (h : readFixed text = .char value rest) : rest <:+ text := by
  unfold readFixed at h
  split at h
  · exact absurd h (by simp)
  next leading after hl =>
    have hs := fourDigits?_suffix hl
    split at h
    · split at h
      next second =>
        split at h
        · exact absurd h (by simp)
        next trailing last ht =>
          split at h
          · cases h
            exact (fourDigits?_suffix ht).trans
              (((List.suffix_cons ..).trans (List.suffix_cons ..)).trans hs)
          · exact absurd h (by simp)
      · exact absurd h (by simp)
    · split at h
      · cases h
        exact hs
      · exact absurd h (by simp)

/-- An escape takes the first character after the backslash and perhaps more. -/
theorem read_suffix {text rest : List Char} {value : Char} (h : read text = .char value rest) :
    rest <:+ text.tail := by
  unfold read at h
  split at h
  next c tail =>
    split at h
    · split at h
      next hb =>
        cases h
        exact braced?_suffix hb
      · exact readFixed_suffix h
    · split at h
      · cases h
        exact List.suffix_refl _
      · exact absurd h (by simp)
  · exact absurd h (by simp)

end SdlGraph.Escape
