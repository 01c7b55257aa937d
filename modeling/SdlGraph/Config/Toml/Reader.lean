import SdlGraph.Config.Toml.Scalar
import SdlGraph.Config.Toml.Table
import SdlGraph.Config.Toml.Text

/-!
# Reading TOML

A TOML text is read line by line: blank lines, key-value pairs and headers. Values nest up to
`nestingLimit`, and keys have no more parts than that. A text that does not follow the format, or
that gives a key twice, has no table.
-/

namespace SdlGraph.Toml

/-- Deepest nesting of arrays and inline tables, and greatest number of parts of a key. -/
def nestingLimit : Nat := 80

/-- Whether a character belongs to the word of an unquoted value: it is no blank, line break,
bracket, brace, comma, equals sign or number sign. -/
def isWordChar (c : Char) : Bool :=
  c ∉ [' ', '\t', '\r', '\n', '[', ']', '\x7b', '\x7d', ',', '=', '#']

/-- The value of a word. -/
def word? (word : List Char) : Option Item :=
  if word = ['t', 'r', 'u', 'e'] then some (.boolean true)
  else if word = ['f', 'a', 'l', 's', 'e'] then some (.boolean false)
  else if hasIntegerOutline word then
    match integer? word with
    | some n => some (if isHeldInteger n then .integer n else .unreadable)
    | none => some .unreadable
  else
    match floatingNumber? word with
    | some number => some (if number.isHeld then .float number else .unreadable)
    | none =>
      if isDate word || isTime word || isDateTime word then some (.dateTime (String.ofList word))
      else none

/-- An unquoted value. A space between a date and a time of day belongs to the value. -/
def unquoted? (text : List Char) : Option (Item × List Char) :=
  let first := text.takeWhile isWordChar
  let rest := text.dropWhile isWordChar
  match rest with
  | ' ' :: more =>
    let second := more.takeWhile isWordChar
    if isDate first && isDateTime (first ++ ' ' :: second) then
      some (.dateTime (String.ofList (first ++ ' ' :: second)), more.dropWhile isWordChar)
    else (word? first).map (·, rest)
  | _ => (word? first).map (·, rest)

/-- The items of an array, after its opening bracket or a comma. -/
def arrayItems? (item? : List Char → Option (Item × List Char)) (text : List Char) :
    Option (List Item × List Char) :=
  match skipLines text with
  | ']' :: rest => some ([], rest)
  | start =>
    match item? start with
    | none => none
    | some (item, after) =>
      match skipLines after with
      | ',' :: rest =>
        if rest.length < text.length then
          (arrayItems? item? rest).map fun (items, last) => (item :: items, last)
        else none
      | ']' :: rest => some ([item], rest)
      | _ => none
termination_by text.length

/-- The parts of a key, if there are not too many. -/
def path? (text : List Char) : Option (List String × List Char) :=
  match key? text with
  | some (path, after) => if path.length ≤ nestingLimit then some (path, after) else none
  | none => none

/-- A key-value pair, given what may be skipped around its equals sign and a reader of values. -/
def pair? (skip : List Char → List Char) (item? : List Char → Option (Item × List Char))
    (text : List Char) : Option ((List String × Item) × List Char) :=
  match path? text with
  | none => none
  | some (path, after) =>
    match skip after with
    | '=' :: rest => (item? (skip rest)).map fun (item, last) => ((path, item), last)
    | _ => none

/-- The entries of an inline table, after its opening brace or a comma. -/
def inlineEntries? (item? : List Char → Option (Item × List Char)) (entries : Entries)
    (text : List Char) : Option (Entries × List Char) :=
  match skipLines text with
  | '\x7d' :: rest => some (entries, rest)
  | start =>
    match pair? skipLines item? start with
    | none => none
    | some ((path, item), after) =>
      match entries.assign item path with
      | none => none
      | some entries =>
        match skipLines after with
        | ',' :: rest =>
          if rest.length < text.length then inlineEntries? item? entries rest else none
        | '\x7d' :: rest => some (entries, rest)
        | _ => none
termination_by text.length

/-- A value with at most the given number of levels of arrays and inline tables. -/
def value? : Nat → List Char → Option (Item × List Char)
  | levels, text =>
    match text, levels with
    | '[' :: rest, levels + 1 =>
      (arrayItems? (value? levels) rest).map fun (items, last) => (.array items, last)
    | '\x7b' :: rest, levels + 1 =>
      (inlineEntries? (value? levels) [] rest).map fun (entries, last) => (.inline entries, last)
    | '"' :: _, _ => (string? text).map fun (value, last) => (.text value, last)
    | '\'' :: _, _ => (string? text).map fun (value, last) => (.text value, last)
    | _, _ => unquoted? text

/-- The tables read so far, and the header that key-value pairs belong to. -/
structure Progress where
  /-- The table of the whole text. -/
  root : Entries
  /-- The keys of the last header. -/
  header : List String

/-- Open the table of a header, given how its last key is opened. -/
def Progress.enter (progress : Progress) (header : List String)
    (opening : String → Entries → Option Entries) : Option Progress :=
  match header.getLast? with
  | none => none
  | some key =>
    (progress.root.modifyAt (opening key) header.dropLast).map fun root => ⟨root, header⟩

/-- A header, a key-value pair or nothing, at the start of a line after its blank space. -/
def expression? (progress : Progress) (text : List Char) : Option (Progress × List Char) :=
  match text with
  | [] => some (progress, [])
  | '#' :: _ => some (progress, text)
  | '\n' :: _ => some (progress, text)
  | '\r' :: _ => some (progress, text)
  | '[' :: '[' :: rest =>
    match path? (skipBlank rest) with
    | none => none
    | some (header, after) =>
      match skipBlank after with
      | ']' :: ']' :: last => (progress.enter header Entries.openElement).map (·, last)
      | _ => none
  | '[' :: rest =>
    match path? (skipBlank rest) with
    | none => none
    | some (header, after) =>
      match skipBlank after with
      | ']' :: last => (progress.enter header Entries.openTable).map (·, last)
      | _ => none
  | _ =>
    match pair? skipBlank (value? nestingLimit) text with
    | none => none
    | some ((path, item), last) =>
      (progress.root.modifyAt (·.assign item path) progress.header).map fun root =>
        (⟨root, progress.header⟩, last)

/-- The lines that follow, given the tables read before them. -/
def lines? (progress : Progress) (text : List Char) : Option Entries :=
  match expression? progress (skipBlank text) with
  | none => none
  | some (progress, after) =>
    match skipComment (skipBlank after) with
    | [] => some progress.root
    | next =>
      match afterLineBreak? next with
      | none => none
      | some rest => if rest.length < text.length then lines? progress rest else none
termination_by text.length

/-- The table of a TOML text. A byte order mark at its start is skipped. -/
def read? (source : String) : Option Entries :=
  match source.toList with
  | '\ufeff' :: text => lines? ⟨[], []⟩ text
  | text => lines? ⟨[], []⟩ text

end SdlGraph.Toml
