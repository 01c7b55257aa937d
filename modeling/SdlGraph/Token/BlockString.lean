import SdlGraph.Text.Span

/-!
# Block strings

A block string stands between three quotes; three quotes inside it are written after a backslash.
Its value has the common indentation removed and the blank lines at both ends dropped. Lines are cut
in two passes, so that a carriage return and a line feed break a line once, and indentation is
counted in bytes.
-/

namespace SdlGraph.BlockString

/-- Read up to the closing quotes: the raw text before them and what follows them. -/
def readRaw? : List Char → Option (List Char × List Char)
  | '"' :: '"' :: '"' :: rest => some ([], rest)
  | '\\' :: '"' :: '"' :: '"' :: rest =>
    (readRaw? rest).map fun (raw, after) => ('"' :: '"' :: '"' :: raw, after)
  | c :: rest => (readRaw? rest).map fun (raw, after) => (c :: raw, after)
  | [] => none

/-- A text cut at each carriage return that a line feed follows. -/
def cutAtPairs : List Char → List (List Char)
  | [] => [[]]
  | '\r' :: '\n' :: rest => [] :: cutAtPairs rest
  | c :: rest => (cutAtPairs rest).modifyHead (c :: ·)

/-- A text cut at each line feed and at each carriage return. -/
def cutAtLineEnds : List Char → List (List Char)
  | [] => [[]]
  | c :: rest =>
    if c = '\n' ∨ c = '\r' then [] :: cutAtLineEnds rest
    else (cutAtLineEnds rest).modifyHead (c :: ·)

/-- The pieces of a text between its line breaks: a line feed, a carriage return, or both in
this order. -/
def lines (text : List Char) : List (List Char) := (cutAtPairs text).flatMap cutAtLineEnds

/-- Whether a character indents: a space or a tab. -/
def isIndent (c : Char) : Bool := c = ' ' || c = '\t'

/-- Whether a line holds nothing but indentation. -/
def isBlankLine (line : List Char) : Bool := line.all isIndent

/-- Number of bytes that indent a line. -/
def indentation (line : List Char) : Nat :=
  utf8Length line - utf8Length (line.dropWhile isIndent)

/-- The least indentation of the lines that hold more than indentation. -/
def commonIndentation? (lines : List (List Char)) : Option Nat :=
  (lines.filterMap fun line =>
    if indentation line < utf8Length line then some (indentation line) else none).min?

/-- What follows the first bytes of a line, if these are whole characters of it. -/
def afterBytes? : Nat → List Char → Option (List Char)
  | 0, line => some line
  | _ + 1, [] => none
  | count + 1, c :: rest =>
    if c.utf8Size ≤ count + 1 then afterBytes? (count + 1 - c.utf8Size) rest else none

/-- Drop the blank lines at both ends. -/
def trimBlankLines (lines : List (List Char)) : List (List Char) :=
  ((lines.dropWhile isBlankLine).reverse.dropWhile isBlankLine).reverse

/-- Take the common indentation from every line but the first. Nothing is left of a line from which
it cannot be taken. -/
def unindent : List (List Char) → List (List Char)
  | [] => []
  | first :: rest =>
    match commonIndentation? rest with
    | some width => first :: rest.map fun line => (afterBytes? width line).getD []
    | none => first :: rest

/-- The value of a block string with the given raw text. -/
def value (raw : List Char) : List Char :=
  ['\n'].intercalate (trimBlankLines (unindent (lines raw)))

/-- What follows a block string is a part of the text after its opening quotes. -/
theorem readRaw?_suffix {text raw rest : List Char} (h : readRaw? text = some (raw, rest)) :
    rest <:+ text := by
  fun_induction readRaw? text generalizing raw rest with
  | case1 after =>
    cases h
    exact ⟨['"', '"', '"'], rfl⟩
  | case2 after ih =>
    simp only [Option.map_eq_some_iff, Prod.mk.injEq] at h
    obtain ⟨⟨r, a⟩, hr, _, rfl⟩ := h
    exact (ih hr).trans ⟨['\\', '"', '"', '"'], rfl⟩
  | case3 c after _ _ ih =>
    simp only [Option.map_eq_some_iff, Prod.mk.injEq] at h
    obtain ⟨⟨r, a⟩, hr, _, rfl⟩ := h
    exact (ih hr).trans (List.suffix_cons ..)
  | case4 => exact absurd h (by simp)

end SdlGraph.BlockString
