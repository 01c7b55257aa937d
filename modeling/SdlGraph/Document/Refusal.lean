import SdlGraph.Diagnostic.Basic
import SdlGraph.Document.Basic
import SdlGraph.Token.Basic

/-!
# Refusals

A document is refused at the first token that cannot continue it, or at the end of the tokens. A
refusal tells what stood against going on there, and since which token an unfinished construct had
been read. Its diagnostic points at tokens by their indices.
-/

namespace SdlGraph

/-- What the grammar asks for at some point of a document. -/
inductive Expectation where
  /-- A mark that must stand here. -/
  | mark (wanted : Punctuator)
  /-- A keyword that must stand here. -/
  | keyword (word : String)
  /-- The name of an entry of an input object. -/
  | objectFieldName
  /-- A constant value. -/
  | value
  /-- A type. -/
  | type
  /-- The name of an argument. -/
  | argumentName
  /-- The name of a directive. -/
  | directiveName
  /-- The name of a field of an input object type. -/
  | inputFieldName
  /-- The name of a field. -/
  | fieldName
  /-- The name of an enum value. -/
  | enumValueName
  /-- The name of an interface. -/
  | interfaceName
  /-- The name of a member of a union. -/
  | unionMember
  /-- The keyword of a root operation. -/
  | operation
  /-- The name of a type. -/
  | typeName
  /-- A part that an extension adds. -/
  | addition
  /-- The name of a directive location. -/
  | directiveLocation
  /-- What can be extended. -/
  | extension
  /-- A definition that a description belongs to. -/
  | describedDefinition
  /-- A definition or extension. -/
  | definition
  deriving DecidableEq, Repr

/-- How a message names what was expected. -/
def Expectation.text : Expectation → String
  | mark wanted => "`" ++ wanted.text ++ "`"
  | keyword word => "`" ++ word ++ "`"
  | objectFieldName => "object field name"
  | value => "value"
  | type => "type"
  | argumentName => "argument name"
  | directiveName => "directive name"
  | inputFieldName => "input field name"
  | fieldName => "field name"
  | enumValueName => "enum value other than `true`, `false` or `null`"
  | interfaceName => "interface name"
  | unionMember => "union member type"
  | operation => "`query`, `mutation` or `subscription`"
  | typeName => "type name"
  | addition => "directives or members to add"
  | directiveLocation => "directive location"
  | extension => "type system extension"
  | describedDefinition => "definition after description"
  | definition => "type system definition"

/-- Deepest nesting of lists in a type, or of lists and input objects in a value. -/
def nestingLimit : Nat := 128

/-- What stands against going on. -/
inductive Obstacle where
  /-- Something else was expected. -/
  | expected (expectation : Expectation)
  /-- An operation or fragment starts here. -/
  | executable
  /-- A list or input object is nested too deep. -/
  | tooDeep
  /-- There are no tokens at all. -/
  | noDefinitions
  deriving DecidableEq, Repr

/-- The point at which a document was refused, and why. -/
structure Refusal where
  /-- What stood against going on. -/
  obstacle : Obstacle
  /-- Index of the token refused, or the number of tokens. -/
  index : Nat
  /-- Index of the first token read of the innermost construct left unfinished. -/
  since : Option Nat
  deriving DecidableEq, Repr

namespace Refusal

/-- Remember that a construct was being read since a token, unless one inside it is remembered. -/
def within (start : Nat) (refusal : Refusal) : Refusal :=
  { refusal with since := some (refusal.since.getD start) }

/-- The range of the token at an index. -/
def tokenExtent (index : Nat) : Extent := ⟨index, index + 1⟩

/-- Where the part of an unfinished construct stands that had been read, if there is any. -/
def context? (refusal : Refusal) : Option Extent :=
  match refusal.since with
  | some start => if start < refusal.index then some ⟨start, refusal.index⟩ else none
  | none => none

/-- The diagnostic of a refusal of the given tokens. -/
def diagnostic (tokens : List Token) (refusal : Refusal) : Diagnostic Extent :=
  match refusal.obstacle with
  | .executable =>
    { code := some .executableDefinition
      message := "executable definitions are not allowed in a schema document"
      labels := [.primary (tokenExtent refusal.index) "operation or fragment"]
      help := some "only type system definitions can be visualized" }
  | .tooDeep =>
    { code := some .unexpectedToken
      message := "nesting too deep: lists and input objects may be nested at most " ++
        toString nestingLimit ++ " levels"
      labels := [.primary (tokenExtent refusal.index) "nesting limit exceeded here"]
      help := some "flatten the type or default value" }
  | .noDefinitions =>
    { code := some .emptyDocument
      message := "schema document contains no definitions"
      labels := []
      help := some ("provide at least one type definition, for example " ++
        "`type Query \x7b ping: String \x7d`") }
  | .expected expectation =>
    match tokens[refusal.index]? with
    | some token =>
      { code := some .unexpectedToken
        message := "unexpected token `" ++ token.display ++ "`: expected " ++ expectation.text
        labels := .primary (tokenExtent refusal.index) "unexpected token" ::
          (refusal.context?.map (.secondary · "while parsing this")).toList
        help := none }
    | none =>
      { code := some .incompleteInput
        message := "unexpected end of input: expected " ++ expectation.text
        labels := [.primary (tokenExtent (tokens.length - 1)) "input ends here"]
        help := some "check for a missing closing `\x7d`, `)` or `]`" }

end Refusal

theorem exists_ok_of_isOk {ε α : Type} {result : Except ε α} (h : result.isOk = true) :
    ∃ value, result = .ok value := by
  cases result with
  | ok value => exact ⟨value, rfl⟩
  | error problem => cases h

end SdlGraph
