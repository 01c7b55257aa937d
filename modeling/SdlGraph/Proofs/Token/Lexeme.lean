import Mathlib.Computability.Language
import Mathlib.Data.List.TakeWhile
import SdlGraph.Token.Region

/-!
# Lexemes

A lexeme is a piece of a text that is a token by itself. Some kinds are told by the piece alone;
others also ask what may follow, so that names and blanks are as long as they can be and a number
does not run into a name. A text splits into lexemes if it is a sequence of them without gaps; the
tokens then stand where the lexemes do.
-/

namespace SdlGraph

/-- No character of a class stands at the start of a text. -/
def StartsOutside (p : Char → Bool) (text : List Char) : Prop := ∀ c ∈ text.head?, p c = false

namespace Numeral

/-- One character of a class. -/
def one (p : Char → Bool) : Language Char := {text | ∃ c, p c = true ∧ text = [c]}

/-- Any number of characters of a class. -/
def run (p : Char → Bool) : Language Char := {text | ∀ c ∈ text, p c = true}

/-- One or more digits. -/
def digits : Language Char := one Number.isDigit * run Number.isDigit

/-- A lone zero, or digits that do not start with a zero. -/
def unsigned : Language Char :=
  {['0']} + one (fun c => '1' ≤ c && c ≤ '9') * run Number.isDigit

/-- An integer. -/
def integer : Language Char := (1 + {['-']}) * unsigned

/-- A fraction. -/
def fraction : Language Char := {['.']} * digits

/-- An exponent. -/
def exponent : Language Char :=
  one (fun c => c = 'e' || c = 'E') * ((1 + one fun c => c = '+' || c = '-') * digits)

/-- A number with a fraction, an exponent or both. -/
def decimal : Language Char := integer * (fraction * (1 + exponent) + exponent)

/-- Whether a character may not follow a number: a letter, a digit, an underscore or a full stop. -/
def continues (c : Char) : Bool := Reading.isNameChar c || c = '.'

end Numeral

open Text

/-- The letters and marks that stand for a character after a backslash, with this character. -/
def Escape.letters : List (Char × Char) :=
  [('"', '"'), ('\\', '\\'), ('/', '/'), ('b', '\x08'), ('f', '\x0c'), ('n', '\n'), ('r', '\r'),
    ('t', '\t')]

/-- The character that a text names as an escape, after its backslash. -/
inductive Escape.Names : List Char → Char → Prop where
  /-- A letter or mark that stands for a character. -/
  | letter {c value : Char} (h : (c, value) ∈ letters) : Names [c] value
  /-- The number of a character in four hexadecimal digits. -/
  | fixed {digits : List Char} {value : Char} (hlength : digits.length = 4)
      (hdigits : ∀ c ∈ digits, isHexDigit c = true) (hvalue : value.toNat = hexNumber digits) :
      Names ('u' :: digits) value
  /-- A leading and a trailing surrogate, each in four hexadecimal digits. -/
  | pair {leading trailing : List Char} {value : Char} (hleading : leading.length = 4)
      (htrailing : trailing.length = 4) (hdigits : ∀ c ∈ leading ++ trailing, isHexDigit c = true)
      (hfirst : 0xD800 ≤ hexNumber leading ∧ hexNumber leading ≤ 0xDBFF)
      (hsecond : 0xDC00 ≤ hexNumber trailing ∧ hexNumber trailing ≤ 0xDFFF)
      (hvalue : value.toNat =
        0x10000 + (hexNumber leading - 0xD800) * 0x400 + (hexNumber trailing - 0xDC00)) :
      Names ('u' :: (leading ++ '\\' :: 'u' :: trailing)) value
  /-- The number of a character in one to six hexadecimal digits in braces. -/
  | braced {digits : List Char} {value : Char}
      (hlength : 1 ≤ digits.length ∧ digits.length ≤ 6)
      (hdigits : ∀ c ∈ digits, isHexDigit c = true) (hvalue : value.toNat = hexNumber digits) :
      Names ('u' :: '\x7b' :: (digits ++ ['\x7d'])) value

/-- What may stand between the quotes of a string, and the value that it gives. -/
inductive QuotedString.Body : List Char → List Char → Prop where
  /-- Nothing. -/
  | nil : Body [] []
  /-- A character other than a quote, a backslash and a line end. -/
  | plain {c : Char} {body value : List Char} (hquote : c ≠ '"') (hbackslash : c ≠ '\\')
      (hline : c ≠ '\n' ∧ c ≠ '\r') (hbody : Body body value) : Body (c :: body) (c :: value)
  /-- An escape. -/
  | escape {piece body value : List Char} {c : Char} (hpiece : Escape.Names piece c)
      (hbody : Body body value) : Body ('\\' :: (piece ++ body)) (c :: value)

namespace BlockString

/-- Three quotes. -/
def quotes : List Char := ['"', '"', '"']

/-- Three quotes stand at a position of a text, and no backslash with three quotes overlaps them. -/
def ClosesAt (text : List Char) (i : Nat) : Prop :=
  quotes <+: text.drop i ∧ ∀ j < i, i ≤ j + 3 → ¬ '\\' :: quotes <+: text.drop j

/-- The first position at which a block string closes. -/
def FirstClosesAt (text : List Char) (i : Nat) : Prop :=
  ClosesAt text i ∧ ∀ j < i, ¬ClosesAt text j

/-- A text with the backslashes before three quotes taken away. -/
def unescape : List Char → List Char
  | '\\' :: '"' :: '"' :: '"' :: rest => '"' :: '"' :: '"' :: unescape rest
  | c :: rest => c :: unescape rest
  | [] => []

end BlockString

open BlockString (quotes)

/-- A piece of a text is a token, before the rest of the text. -/
inductive Lexeme : Token → List Char → List Char → Prop where
  /-- A name as long as it can be. -/
  | name {first : Char} {more rest : List Char} (hfirst : Reading.isNameStart first = true)
      (hmore : ∀ c ∈ more, Reading.isNameChar c = true)
      (hrest : StartsOutside Reading.isNameChar rest) :
      Lexeme (.name (String.ofList (first :: more))) (first :: more) rest
  /-- An integer that nothing continues. -/
  | intValue {written rest : List Char} (h : written ∈ Numeral.integer)
      (hrest : StartsOutside Numeral.continues rest) :
      Lexeme (.intValue (String.ofList written)) written rest
  /-- A number with a fraction or an exponent that nothing continues. -/
  | floatValue {written rest : List Char} (h : written ∈ Numeral.decimal)
      (hrest : StartsOutside Numeral.continues rest) :
      Lexeme (.floatValue (String.ofList written)) written rest
  /-- A quoted string where no three quotes start. -/
  | stringValue {body value rest : List Char} (h : QuotedString.Body body value)
      (hquotes : ¬quotes <+: '"' :: (body ++ '"' :: rest)) :
      Lexeme (.stringValue (String.ofList value)) ('"' :: (body ++ ['"'])) rest
  /-- A block string up to the first three quotes that close it. -/
  | blockString {body rest : List Char}
      (h : BlockString.FirstClosesAt (body ++ quotes ++ rest) body.length) :
      Lexeme (.blockString (String.ofList (BlockString.value (BlockString.unescape body))))
        (quotes ++ body ++ quotes) rest
  /-- A comment up to the end of its line. -/
  | comment {body rest : List Char} (hbody : ∀ c ∈ body, c ≠ '\n' ∧ c ≠ '\r')
      (hrest : ∀ c ∈ rest.head?, c = '\n' ∨ c = '\r') :
      Lexeme (.comment (String.ofList body)) ('#' :: body) rest
  /-- A mark. -/
  | punctuator (mark : Punctuator) {rest : List Char} :
      Lexeme (.punctuator mark) mark.text.toList rest
  /-- A comma. -/
  | comma {rest : List Char} : Lexeme .comma [','] rest
  /-- A line feed. -/
  | lineFeed {rest : List Char} : Lexeme .lineBreak ['\n'] rest
  /-- A carriage return and a line feed. -/
  | returnFeed {rest : List Char} : Lexeme .lineBreak ['\r', '\n'] rest
  /-- A carriage return by itself. -/
  | carriageReturn {rest : List Char} (hrest : StartsOutside (· = '\n') rest) :
      Lexeme .lineBreak ['\r'] rest
  /-- Blanks, as many as there are. -/
  | blanks {first : Char} {more rest : List Char}
      (hpiece : ∀ c ∈ first :: more, Reading.isBlankChar c = true)
      (hrest : StartsOutside Reading.isBlankChar rest) : Lexeme .blanks (first :: more) rest

namespace Lexeme

/-- A text is a sequence of lexemes. -/
inductive Splits : List Char → List (Token × List Char) → Prop where
  /-- The empty text has none. -/
  | nil : Splits [] []
  /-- A lexeme stands before those of the rest. -/
  | cons {token : Token} {piece rest : List Char} {split : List (Token × List Char)}
      (hfirst : Lexeme token piece rest) (hrest : Splits rest split) :
      Splits (piece ++ rest) ((token, piece) :: split)

/-- The tokens of lexemes with their byte ranges, the first of them starting at byte `start`. -/
def locate (start : Nat) : List (Token × List Char) → List (Located Span Token)
  | [] => []
  | (token, piece) :: rest =>
    ⟨token, Span.between start (start + utf8Length piece)⟩ ::
      locate (start + utf8Length piece) rest

end Lexeme

/-- A byte range of a text holds a piece of it. -/
def Span.Holds (source : String) (span : Span) (piece : String) : Prop :=
  ∃ before after, source = before ++ piece ++ after ∧ span.start = before.utf8ByteSize ∧
    span.stop = (before ++ piece).utf8ByteSize

/-- Tokens cover a text: they stand between its characters, one after the other from its start to
its end, and none is empty. -/
structure Token.Cover (source : String) (tokens : List (Located Span Token)) : Prop where
  /-- No token is empty. -/
  nonempty : ∀ token ∈ tokens, token.place.start < token.place.stop
  /-- Tokens start and end between characters. -/
  boundaries : ∀ token ∈ tokens, (String.Pos.Raw.mk token.place.start).IsValid source ∧
    (String.Pos.Raw.mk token.place.stop).IsValid source
  /-- Each token starts where the one before ends. -/
  consecutive : tokens.IsChain fun token next => token.place.stop = next.place.start
  /-- The first token starts at the start. -/
  first : ∀ token ∈ tokens.head?, token.place.start = 0
  /-- The last token ends at the end. -/
  last : ∀ token ∈ tokens.getLast?, token.place.stop = source.utf8ByteSize
  /-- Only the empty text has no tokens. -/
  empty : tokens = [] → source = ""

namespace StartsOutside

variable {p q : Char → Bool} {text : List Char}

theorem cons_iff {c : Char} : StartsOutside p (c :: text) ↔ p c = false := by
  simp [StartsOutside]

/-- A text that starts outside a class starts outside any smaller one. -/
theorem mono (h : StartsOutside p text) (hq : ∀ c, q c = true → p c = true) :
    StartsOutside q text := by
  intro c hc
  rw [Bool.eq_false_iff]
  intro hqc
  exact absurd (hq c hqc) (by simp [h c hc])

end StartsOutside

/-- A run of a class at the start of a text, and what follows it. -/
theorem takeWhile_dropWhile_iff {p : Char → Bool} {text piece rest : List Char} :
    text.takeWhile p = piece ∧ text.dropWhile p = rest ↔
      text = piece ++ rest ∧ (∀ c ∈ piece, p c = true) ∧ StartsOutside p rest := by
  constructor
  · rintro ⟨rfl, rfl⟩
    refine ⟨List.takeWhile_append_dropWhile.symm, fun c hc => List.mem_takeWhile_imp hc, ?_⟩
    intro c hc
    have hhead := List.head?_dropWhile_not p text
    rw [Option.mem_def.mp hc] at hhead
    exact hhead
  · rintro ⟨rfl, hpiece, hrest⟩
    rw [List.takeWhile_append_of_pos hpiece, List.dropWhile_append_of_pos hpiece]
    cases rest with
    | nil => simp
    | cons c rest =>
      have hc : p c = false := hrest c rfl
      simp [hc]

end SdlGraph
