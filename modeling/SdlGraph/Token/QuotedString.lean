import SdlGraph.Text.Span
import SdlGraph.Token.Escape
import SdlGraph.Token.Fault

/-!
# Quoted strings

A quoted string holds characters other than quotes, backslashes and line breaks, and escapes. Its
value is read together with what follows it. A string that cannot be read is skipped: `skip` stops
after the closing quote or after the line break that cuts the string off.
-/

namespace SdlGraph.QuotedString

/-- Whether a character ends a line. -/
def isLineEnd (c : Char) : Bool := c = '\n' || c = '\r'

/-- Read a string after its opening quote, `offset` bytes after the start of the token: the value
and what follows the closing quote. -/
def read (offset : Nat) : List Char → Except LexicalFault (List Char × List Char)
  | [] => .error (.unterminatedString offset)
  | c :: rest =>
    if c = '"' then .ok ([], rest)
    else if isLineEnd c then .error (.unterminatedString offset)
    else if c = '\\' then
      match h : Escape.read rest with
      | .char value after =>
        have : after.length ≤ rest.tail.length := (Escape.read_suffix h).length_le
        (read (offset + 1 + (rest.length - after.length)) after).map
          fun (text, last) => (value :: text, last)
      | .unknown => .error (.invalidEscape offset)
      | .malformed length => .error (.invalidUnicodeEscape offset length)
    else (read (offset + c.utf8Size) rest).map fun (text, last) => (c :: text, last)
termination_by text => text.length
decreasing_by
  all_goals simp_all
  omega

/-- What remains after a string, taken up after its opening quote, has been skipped. A backslash
hides the character after it unless that is a line break. -/
def skip : List Char → List Char
  | [] => []
  | [_] => []
  | c :: d :: rest =>
    if c = '"' ∨ isLineEnd c then d :: rest
    else if c = '\\' ∧ isLineEnd d = false then skip rest
    else skip (d :: rest)

/-- What follows a string is a part of the text after its opening quote. -/
theorem read_suffix {offset : Nat} {text value rest : List Char}
    (h : read offset text = .ok (value, rest)) : rest <:+ text := by
  fun_induction read offset text generalizing value rest with
  | case1 => exact absurd h (by simp)
  | case2 => cases h; exact List.suffix_cons ..
  | case3 => exact absurd h (by simp)
  | case4 offset tail value after he _ _ _ ih =>
    cases hr : read (offset + 1 + (tail.length - after.length)) after with
    | error fault => simp [hr, Except.map] at h
    | ok answer =>
      simp only [hr, Except.map, Except.ok.injEq, Prod.mk.injEq] at h
      have := ih hr
      rw [h.2] at this
      exact this.trans (((Escape.read_suffix he).trans (List.tail_suffix _)).trans
        (List.suffix_cons ..))
  | case5 => exact absurd h (by simp)
  | case6 => exact absurd h (by simp)
  | case7 offset c tail _ _ _ ih =>
    cases hr : read (offset + c.utf8Size) tail with
    | error fault => simp [hr, Except.map] at h
    | ok answer =>
      simp only [hr, Except.map, Except.ok.injEq, Prod.mk.injEq] at h
      have := ih hr
      rw [h.2] at this
      exact this.trans (List.suffix_cons ..)

theorem skip_suffix (text : List Char) : skip text <:+ text := by
  fun_induction skip text with
  | case1 => exact List.suffix_refl _
  | case2 => exact List.nil_suffix
  | case3 => exact List.suffix_cons ..
  | case4 c d rest _ _ ih => exact ih.trans ⟨[c, d], rfl⟩
  | case5 c d rest _ _ ih => exact ih.trans (List.suffix_cons ..)

end SdlGraph.QuotedString
