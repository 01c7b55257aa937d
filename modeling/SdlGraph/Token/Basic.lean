import SdlGraph.Text.Quoted

/-!
# Tokens

The units a schema text is read in. Keywords depend on their place, so every word is a name here.
Comments, commas, blanks and line breaks are tokens too; the grammar ignores them.
-/

namespace SdlGraph

/-- The marks that structure a document. -/
inductive Punctuator where
  /-- The mark of a type that is never null. -/
  | bang
  /-- The mark of a variable. -/
  | dollar
  /-- The mark between interfaces. -/
  | amp
  /-- Opens a list of arguments. -/
  | leftParen
  /-- Closes a list of arguments. -/
  | rightParen
  /-- Three full stops. -/
  | spread
  /-- Stands before a type or a value. -/
  | colon
  /-- Stands before a default value or the members of a union. -/
  | equals
  /-- Stands before the name of a directive. -/
  | atSign
  /-- Opens a list. -/
  | leftBracket
  /-- Closes a list. -/
  | rightBracket
  /-- Opens a block or an input object. -/
  | leftBrace
  /-- The mark between alternatives. -/
  | pipe
  /-- Closes a block or an input object. -/
  | rightBrace
  deriving DecidableEq, Repr

/-- The written form of a mark. -/
def Punctuator.text : Punctuator → String
  | bang => "!"
  | dollar => "$"
  | amp => "&"
  | leftParen => "("
  | rightParen => ")"
  | spread => "..."
  | colon => ":"
  | equals => "="
  | atSign => "@"
  | leftBracket => "["
  | rightBracket => "]"
  | leftBrace => "\x7b"
  | pipe => "|"
  | rightBrace => "\x7d"

/-- A unit of schema text. -/
inductive Token where
  /-- A word. -/
  | name (text : String)
  /-- A number without fraction and exponent, as written. -/
  | intValue (text : String)
  /-- A number with a fraction or an exponent, as written. -/
  | floatValue (text : String)
  /-- A quoted string, its escapes resolved. -/
  | stringValue (text : String)
  /-- A block string, its common indentation removed. -/
  | blockString (text : String)
  /-- A mark. -/
  | punctuator (mark : Punctuator)
  /-- A comment, without the number sign that opens it. -/
  | comment (text : String)
  /-- A comma. -/
  | comma
  /-- A run of spaces, tabs and byte order marks. -/
  | blanks
  /-- A line break. -/
  | lineBreak
  deriving DecidableEq, Repr

namespace Token

/-- Whether the grammar ignores a token. -/
def isTrivia : Token → Bool
  | comment _ => true
  | comma => true
  | blanks => true
  | lineBreak => true
  | _ => false

/-- How a token is shown in a message. -/
def display : Token → String
  | name text => text
  | intValue text => text
  | floatValue text => text
  | stringValue text => Text.quote text
  | blockString _ => "block string"
  | punctuator mark => mark.text
  | comment _ => "comment"
  | comma => ","
  | blanks => "whitespace"
  | lineBreak => "newline"

end Token

end SdlGraph
