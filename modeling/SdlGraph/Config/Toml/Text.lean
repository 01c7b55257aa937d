import SdlGraph.Text.Hexadecimal

/-!
# Strings, keys and blank space of TOML

Every reader here answers with what it read and what follows it, or with nothing if the text does
not follow the format. Basic strings have escapes, literal strings have none, and both have a form
that spans lines.
-/

namespace SdlGraph.Toml

open Text

/-- Whether a character may stand in a comment or a string: a tab, or no control character. -/
def isPlain (c : Char) : Bool := c = '\t' || (0x20 ≤ c.toNat && c.toNat != 0x7F)

/-- Whether a character is blank space within a line. -/
def isBlank (c : Char) : Bool := c = ' ' || c = '\t'

/-- What follows the blank space at the start of a text. -/
def skipBlank (text : List Char) : List Char := text.dropWhile isBlank

/-- What follows a line break at the start of a text. -/
def afterLineBreak? : List Char → Option (List Char)
  | '\n' :: rest => some rest
  | '\r' :: '\n' :: rest => some rest
  | _ => none

/-- What follows an optional comment at the start of a text, up to the end of its line. -/
def skipComment : List Char → List Char
  | '#' :: rest => rest.dropWhile isPlain
  | text => text

/-- What follows blank space, comments and line breaks at the start of a text. -/
def skipLines (text : List Char) : List Char :=
  let next := skipComment (skipBlank text)
  match afterLineBreak? next with
  | some rest => if rest.length < text.length then skipLines rest else rest
  | none => next
termination_by text.length

/-- What follows blank space and line breaks at the start of a text. -/
def skipBlankLines (text : List Char) : List Char :=
  match afterLineBreak? (skipBlank text) with
  | some rest => if rest.length < text.length then skipBlankLines rest else rest
  | none => skipBlank text
termination_by text.length

/-- The character with a number written in a fixed count of hexadecimal digits. -/
def numbered? (count : Nat) (text : List Char) : Option (Char × List Char) :=
  let digits := text.take count
  if digits.length = count ∧ digits.all isHexDigit then
    (scalar? (hexNumber digits)).map (·, text.drop count)
  else none

/-- The character that an escape stands for, after its backslash. -/
def escape? : List Char → Option (Char × List Char)
  | 'b' :: rest => some ('\x08', rest)
  | 't' :: rest => some ('\t', rest)
  | 'n' :: rest => some ('\n', rest)
  | 'f' :: rest => some ('\x0c', rest)
  | 'r' :: rest => some ('\r', rest)
  | 'e' :: rest => some ('\x1b', rest)
  | '"' :: rest => some ('"', rest)
  | '\\' :: rest => some ('\\', rest)
  | 'x' :: rest => numbered? 2 rest
  | 'u' :: rest => numbered? 4 rest
  | 'U' :: rest => numbered? 8 rest
  | _ => none

/-- Put a character in front of what was read. -/
def prepend (c : Char) (read : Option (List Char × List Char)) :
    Option (List Char × List Char) :=
  read.map fun (text, rest) => (c :: text, rest)

/-- A basic string on one line, after its opening quote. -/
def basicString? : List Char → Option (List Char × List Char)
  | [] => none
  | c :: text =>
    if c = '"' then some ([], text)
    else if c = '\\' then
      match escape? text with
      | some (value, rest) =>
        if rest.length ≤ text.length then prepend value (basicString? rest) else none
      | none => none
    else if isPlain c then prepend c (basicString? text)
    else none
termination_by text => text.length

/-- A literal string on one line, after its opening apostrophe. -/
def literalString? : List Char → Option (List Char × List Char)
  | [] => none
  | c :: text =>
    if c = '\'' then some ([], text)
    else if isPlain c then prepend c (literalString? text)
    else none

/-- Up to two quotes that belong to a string and the three that close it. -/
def closing? (quote : Char) (text : List Char) : Option (List Char × List Char) :=
  let quotes := (text.takeWhile (· = quote)).length
  if 3 ≤ quotes then
    let kept := min 2 (quotes - 3)
    some (List.replicate kept quote, text.drop (kept + 3))
  else none

/-- A basic string over several lines, after its opening quotes and the line break that may follow
them. A backslash at the end of a line joins it with the next line that is not blank. -/
def basicLines? : List Char → Option (List Char × List Char)
  | [] => none
  | c :: text =>
    match closing? '"' (c :: text) with
    | some closed => some closed
    | none =>
      if c = '\\' then
        match afterLineBreak? (skipBlank text) with
        | some rest =>
          if (skipBlankLines rest).length ≤ text.length then basicLines? (skipBlankLines rest)
          else none
        | none =>
          match escape? text with
          | some (value, rest) =>
            if rest.length ≤ text.length then prepend value (basicLines? rest) else none
          | none => none
      else
        match afterLineBreak? (c :: text) with
        | some rest => if rest.length ≤ text.length then prepend '\n' (basicLines? rest) else none
        | none => if isPlain c then prepend c (basicLines? text) else none
termination_by text => text.length

/-- A literal string over several lines, after its opening apostrophes and the line break that may
follow them. -/
def literalLines? : List Char → Option (List Char × List Char)
  | [] => none
  | c :: text =>
    match closing? '\'' (c :: text) with
    | some closed => some closed
    | none =>
      match afterLineBreak? (c :: text) with
      | some rest =>
        if rest.length ≤ text.length then prepend '\n' (literalLines? rest) else none
      | none => if isPlain c then prepend c (literalLines? text) else none
termination_by text => text.length

/-- What follows a line break, if one is next. -/
def skipLineBreak (text : List Char) : List Char := (afterLineBreak? text).getD text

/-- A string of any form at the start of a text. -/
def string? (text : List Char) : Option (String × List Char) :=
  let read := match text with
    | '"' :: '"' :: '"' :: rest => basicLines? (skipLineBreak rest)
    | '\'' :: '\'' :: '\'' :: rest => literalLines? (skipLineBreak rest)
    | '"' :: rest => basicString? rest
    | '\'' :: rest => literalString? rest
    | _ => none
  read.map fun (value, rest) => (String.ofList value, rest)

/-- Whether a character may stand in a bare key. -/
def isBareKeyChar (c : Char) : Bool := c.isAlphanum || c = '_' || c = '-'

/-- A key without full stops: bare, or a string on one line. -/
def simpleKey? (text : List Char) : Option (String × List Char) :=
  match text with
  | '"' :: rest => (basicString? rest).map fun (name, rest) => (String.ofList name, rest)
  | '\'' :: rest => (literalString? rest).map fun (name, rest) => (String.ofList name, rest)
  | _ =>
    match text.takeWhile isBareKeyChar with
    | [] => none
    | name => some (String.ofList name, text.dropWhile isBareKeyChar)

/-- A key: one or more simple keys with full stops between them. -/
def key? (text : List Char) : Option (List String × List Char) :=
  match simpleKey? text with
  | none => none
  | some (name, after) =>
    match skipBlank after with
    | '.' :: more =>
      let next := skipBlank more
      if next.length < text.length then
        (key? next).map fun (names, rest) => (name :: names, rest)
      else none
    | rest => some ([name], rest)
termination_by text.length

end SdlGraph.Toml
