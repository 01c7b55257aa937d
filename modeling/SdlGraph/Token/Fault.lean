import SdlGraph.Diagnostic.Basic

/-!
# Lexical faults

What can be wrong with a piece of text that is no token. Offsets and lengths count bytes from the
start of the piece.
-/

namespace SdlGraph

/-- The ways in which a piece of text fails to be a token. -/
inductive LexicalFault where
  /-- No token starts with the first character. -/
  | unexpectedCharacter
  /-- A number of this length runs into a name, a digit or a full stop. -/
  | invalidNumber (length : Nat)
  /-- A quoted string breaks off after this length. -/
  | unterminatedString (length : Nat)
  /-- An unknown escape whose backslash stands at this offset. -/
  | invalidEscape (offset : Nat)
  /-- A malformed unicode escape at this offset, read for this length. -/
  | invalidUnicodeEscape (offset length : Nat)
  /-- A block string that takes this length up to the end of the text. -/
  | unterminatedBlockString (length : Nat)
  deriving DecidableEq, Repr

namespace LexicalFault

/-- The code of a fault. -/
def code : LexicalFault → Code
  | unexpectedCharacter => .unexpectedCharacter
  | invalidNumber _ => .unexpectedCharacter
  | unterminatedString _ => .unterminatedString
  | invalidEscape _ => .invalidEscape
  | invalidUnicodeEscape _ _ => .invalidUnicodeEscape
  | unterminatedBlockString _ => .unterminatedBlockString

/-- What is wrong, in one line. -/
def message : LexicalFault → String
  | unexpectedCharacter => "unexpected character"
  | invalidNumber _ => "invalid number"
  | unterminatedString _ => "unterminated string literal"
  | invalidEscape _ => "invalid escape sequence"
  | invalidUnicodeEscape _ _ => "invalid unicode escape"
  | unterminatedBlockString _ => "unterminated block string"

/-- How to mend the text. -/
def help? : LexicalFault → Option String
  | unexpectedCharacter => none
  | invalidNumber _ => some "a number cannot be directly followed by a name or `.`"
  | unterminatedString _ => some "add closing `\"`; use `\"\"\"` for multi-line text"
  | invalidEscape _ =>
    some ("valid escapes: `\\\"`, `\\\\`, `\\/`, `\\b`, `\\f`, `\\n`, `\\r`, `\\t`, " ++
      "`\\uXXXX`")
  | invalidUnicodeEscape _ _ =>
    some "use `\\uXXXX` with 4 hex digits or `\\u\x7b...\x7d` with 1-6 hex digits"
  | unterminatedBlockString _ => some "add closing `\"\"\"`"

/-- The bytes to point at, for a piece of text that starts at byte `start`. An unexpected
character is pointed at by its first byte alone. -/
def span (start : Nat) : LexicalFault → Span
  | unexpectedCharacter => Span.between start (start + 1)
  | invalidNumber length => Span.between start (start + length)
  | unterminatedString length => Span.between start (start + length)
  | invalidEscape offset => Span.between (start + offset) (start + offset + 1)
  | invalidUnicodeEscape offset length =>
    Span.between (start + offset) (start + offset + length)
  | unterminatedBlockString length => Span.between start (start + length)

/-- The diagnostic of a fault in a piece of text that starts at byte `start`. -/
def diagnostic (start : Nat) (fault : LexicalFault) : Diagnostic Span where
  code := some fault.code
  message := fault.message
  labels := [Label.primary (fault.span start) fault.code.description]
  help := fault.help?

end LexicalFault

end SdlGraph
