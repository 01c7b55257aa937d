import SdlGraph.Text.Span
import SdlGraph.Token.Basic
import SdlGraph.Token.BlockString
import SdlGraph.Token.Number
import SdlGraph.Token.QuotedString

/-!
# Reading one token

The first character of a text decides which kind of token starts there. A reading ends in a token
or in a fault; either way it tells where the text is taken up again, and that is always past the
first character.
-/

namespace SdlGraph

/-- The outcome of reading at the start of a text. -/
structure Reading where
  /-- The token, or what is wrong with the text in its place. -/
  outcome : Except LexicalFault Token
  /-- What remains after the token, or where reading resumes after a fault. -/
  rest : List Char

namespace Reading

/-- Whether a name can start with a character. -/
def isNameStart (c : Char) : Bool :=
  ('a' ≤ c && c ≤ 'z') || ('A' ≤ c && c ≤ 'Z') || c = '_'

/-- Whether a name can go on with a character. -/
def isNameChar (c : Char) : Bool := isNameStart c || Number.isDigit c

/-- Whether a character is a blank: a space, a tab or a byte order mark. -/
def isBlankChar (c : Char) : Bool := c = ' ' || c = '\t' || c = '\ufeff'

/-- The token that is a single character by itself. -/
def single? : Char → Option Token
  | '!' => some (.punctuator .bang)
  | '$' => some (.punctuator .dollar)
  | '&' => some (.punctuator .amp)
  | '(' => some (.punctuator .leftParen)
  | ')' => some (.punctuator .rightParen)
  | ':' => some (.punctuator .colon)
  | '=' => some (.punctuator .equals)
  | '@' => some (.punctuator .atSign)
  | '[' => some (.punctuator .leftBracket)
  | ']' => some (.punctuator .rightBracket)
  | '\x7b' => some (.punctuator .leftBrace)
  | '|' => some (.punctuator .pipe)
  | '\x7d' => some (.punctuator .rightBrace)
  | ',' => some .comma
  | _ => none

/-- The comment whose number sign precedes a text. -/
def ofComment (text : List Char) : Reading :=
  ⟨.ok (.comment (String.ofList (text.takeWhile fun c => !QuotedString.isLineEnd c))),
    text.dropWhile fun c => !QuotedString.isLineEnd c⟩

/-- The string whose first quote precedes a text: a block string if two more quotes follow. -/
def ofString : List Char → Reading
  | '"' :: '"' :: raw =>
    match BlockString.readRaw? raw with
    | some (body, rest) => ⟨.ok (.blockString (String.ofList (BlockString.value body))), rest⟩
    | none => ⟨.error (.unterminatedBlockString (3 + utf8Length raw)), []⟩
  | text =>
    match QuotedString.read 1 text with
    | .ok (value, rest) => ⟨.ok (.stringValue (String.ofList value)), rest⟩
    | .error fault => ⟨.error fault, QuotedString.skip text⟩

/-- The number at the start of a text. It must not run into a name, a digit or a full stop. -/
def ofNumber (text : List Char) : Reading :=
  match Number.read? text with
  | none => ⟨.error .unexpectedCharacter, text.tail⟩
  | some number =>
    let written := text.take (text.length - number.rest.length)
    match number.rest with
    | c :: rest =>
      if isNameChar c || c = '.' then ⟨.error (.invalidNumber written.length), rest⟩
      else ⟨.ok (numberToken number.isFloat written), c :: rest⟩
    | [] => ⟨.ok (numberToken number.isFloat written), []⟩
where
  /-- The token of a number as written. -/
  numberToken (isFloat : Bool) (written : List Char) : Token :=
    if isFloat then .floatValue (String.ofList written) else .intValue (String.ofList written)

/-- The name at the start of a text. -/
def ofName (text : List Char) : Reading :=
  ⟨.ok (.name (String.ofList (text.takeWhile isNameChar))), text.dropWhile isNameChar⟩

/-- Read at the start of the text `c :: text`. -/
def ofText (c : Char) (text : List Char) : Reading :=
  if c = '#' then ofComment text
  else if c = '"' then ofString text
  else if c = '-' || Number.isDigit c then ofNumber (c :: text)
  else if isNameStart c then ofName (c :: text)
  else if isBlankChar c then ⟨.ok .blanks, text.dropWhile isBlankChar⟩
  else
    match c, text with
    | '\r', '\n' :: rest => ⟨.ok .lineBreak, rest⟩
    | '\r', rest => ⟨.ok .lineBreak, rest⟩
    | '\n', rest => ⟨.ok .lineBreak, rest⟩
    | '.', '.' :: '.' :: rest => ⟨.ok (.punctuator .spread), rest⟩
    | c, rest =>
      match single? c with
      | some token => ⟨.ok token, rest⟩
      | none => ⟨.error .unexpectedCharacter, rest⟩

theorem ofString_suffix (text : List Char) : (ofString text).rest <:+ text := by
  unfold ofString
  split
  next raw =>
    split
    next h => exact (BlockString.readRaw?_suffix h).trans ⟨['"', '"'], rfl⟩
    · exact List.nil_suffix
  · split
    next h => exact QuotedString.read_suffix h
    · exact QuotedString.skip_suffix _

theorem ofNumber_suffix (text : List Char) : (ofNumber text).rest <:+ text.tail := by
  unfold ofNumber
  split
  · exact List.suffix_refl _
  next number h =>
    have hs := Number.read?_suffix h
    simp only
    split
    next c rest hr =>
      rw [hr] at hs
      split
      · exact (List.suffix_cons ..).trans hs
      · exact hs
    · exact List.nil_suffix

/-- Reading takes at least the first character. -/
theorem ofText_suffix (c : Char) (text : List Char) : (ofText c text).rest <:+ text := by
  unfold ofText
  split
  · exact List.dropWhile_suffix _
  · split
    · exact ofString_suffix _
    · split
      · exact ofNumber_suffix _
      · split
        next hc =>
          have : isNameChar c = true := by simp [isNameChar, hc]
          simp only [ofName, List.dropWhile_cons_of_pos this]
          exact List.dropWhile_suffix _
        · split
          · exact List.dropWhile_suffix _
          · split
            · exact List.suffix_cons ..
            · exact List.suffix_refl _
            · exact List.suffix_refl _
            · exact ⟨['.', '.'], rfl⟩
            · split <;> exact List.suffix_refl _

end Reading

end SdlGraph
