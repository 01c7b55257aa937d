import Mathlib.Algebra.GroupWithZero.Nat
import Mathlib.Computability.Language
import SdlGraph.Document.Grammar

/-!
# How documents are written

The spelling of a document, or of a part of one, is the language of all token lists it may be
written as: its parts in grammar order. A list may be written in more than one way only where the
grammar leaves a choice, which is a leading mark before interfaces, union members and locations, and
the kind of quotes around a string. Empty lists of members and arguments are not written at all.

The data types allow documents that no spelling can stand for. `Document.Grammatical` collects what
the grammar asks of a document beyond its types.
-/

namespace SdlGraph

namespace Spelling

/-- A mark. -/
def mark (written : Punctuator) : Language Token := {[.punctuator written]}

/-- A word. -/
def word (written : String) : Language Token := {[.name written]}

/-- A string, quoted or as a block. -/
def text (written : String) : Language Token := {[.stringValue written], [.blockString written]}

/-- A part that may be left out. -/
def optional (part : Language Token) : Language Token := 1 + part

variable {α σ : Type} (item : α → Language Token)

/-- The items of a list one after the other. -/
def each (items : List α) : Language Token := (items.map item).prod

/-- The items of a list between two marks, or nothing for an empty list. -/
def block (opening close : Punctuator) : List α → Language Token
  | [] => 1
  | items => [mark opening, each item items, mark close].prod

/-- The items of a list with a mark between them. -/
def separated (between : Punctuator) : List α → Language Token
  | [] => 1
  | first :: rest => [item first, each (fun other => mark between * item other) rest].prod

/-- A description, if there is one. -/
def describing : Option (Located σ String) → Language Token
  | none => 1
  | some written => text written.value

end Spelling

open Spelling

/-- The spelling of a type. -/
def TypeRef.spelling : TypeRef → Language Token
  | named name => word name
  | list element => [mark .leftBracket, element.spelling, mark .rightBracket].prod
  | nonNull inner => [inner.spelling, mark .bang].prod

mutual

/-- The spelling of a constant. -/
def Value.spelling : Value → Language Token
  | int text => {[.intValue text]}
  | float text => {[.floatValue text]}
  | string written => text written
  | boolean true => word "true"
  | boolean false => word "false"
  | null => word "null"
  | enum name => word name
  | list items => [mark .leftBracket, itemsSpelling items, mark .rightBracket].prod
  | object entries => [mark .leftBrace, entriesSpelling entries, mark .rightBrace].prod

/-- The spelling of the items of a list. -/
def Value.itemsSpelling : List Value → Language Token
  | [] => 1
  | item :: rest => item.spelling * itemsSpelling rest

/-- The spelling of the entries of an input object. -/
def Value.entriesSpelling : List (String × Value) → Language Token
  | [] => 1
  | (name, value) :: rest =>
    [word name, mark .colon, value.spelling].prod * entriesSpelling rest

end

variable {σ : Type}

/-- The spelling of an argument given to a directive. -/
def Argument.spelling (argument : Argument σ) : Language Token :=
  [word argument.name.value, mark .colon, argument.value.value.spelling].prod

/-- The spelling of a directive application. -/
def DirectiveUse.spelling (use : DirectiveUse σ) : Language Token :=
  [mark .atSign, word use.name.value,
    block Argument.spelling .leftParen .rightParen use.arguments].prod

/-- The spelling of a default value, if there is one. -/
def InputValue.defaultSpelling : Option (Located σ Value) → Language Token
  | none => 1
  | some written => [mark .equals, written.value.spelling].prod

/-- The spelling of an argument definition or a field of an input object type. -/
def InputValue.spelling (input : InputValue σ) : Language Token :=
  [describing input.description, word input.name.value, mark .colon, input.type.type.spelling,
    defaultSpelling input.default, each DirectiveUse.spelling input.directives].prod

/-- The spelling of a field of an object or interface type. -/
def Field.spelling (field : Field σ) : Language Token :=
  [describing field.description, word field.name.value,
    block InputValue.spelling .leftParen .rightParen field.arguments, mark .colon,
    field.type.type.spelling, each DirectiveUse.spelling field.directives].prod

/-- The spelling of a value of an enum type. -/
def EnumValue.spelling (value : EnumValue σ) : Language Token :=
  [describing value.description, word value.name.value,
    each DirectiveUse.spelling value.directives].prod

/-- The spelling of a name by itself. -/
def Located.nameSpelling (name : Located σ String) : Language Token := word name.value

namespace TypeBody

/-- The spelling of the interfaces of a type. -/
def interfacesSpelling : List (Located σ String) → Language Token
  | [] => 1
  | names => [word "implements", optional (mark .amp),
      separated Located.nameSpelling .amp names].prod

/-- The spelling of the members of a union. -/
def membersSpelling : List (Located σ String) → Language Token
  | [] => 1
  | names => [mark .equals, optional (mark .pipe),
      separated Located.nameSpelling .pipe names].prod

/-- The spelling of the parts of a type that follow its directives. -/
def spelling : TypeBody σ → Language Token
  | object _ fields => block Field.spelling .leftBrace .rightBrace fields
  | interface _ fields => block Field.spelling .leftBrace .rightBrace fields
  | union members => membersSpelling members
  | enum values => block EnumValue.spelling .leftBrace .rightBrace values
  | inputObject fields => block InputValue.spelling .leftBrace .rightBrace fields
  | scalar => 1

end TypeBody

/-- The spelling of a type declaration. -/
def TypeDeclaration.spelling (declaration : TypeDeclaration σ) : Language Token :=
  [word declaration.kind.keyword, word declaration.name.value,
    TypeBody.interfacesSpelling declaration.body.interfaces,
    each DirectiveUse.spelling declaration.directives, declaration.body.spelling].prod

/-- The spelling of a root operation. -/
def RootOperation.spelling (root : RootOperation σ) : Language Token :=
  [word root.operation.value.keyword, mark .colon, word root.type.value].prod

/-- The spelling of a schema block. -/
def SchemaBlock.spelling (schema : SchemaBlock σ) : Language Token :=
  [word "schema", each DirectiveUse.spelling schema.directives,
    block RootOperation.spelling .leftBrace .rightBrace schema.operations].prod

/-- The spelling of a directive location. -/
def Located.locationSpelling (location : Located σ DirectiveLocation) : Language Token :=
  word location.value.name

/-- The spelling of a directive declaration. -/
def DirectiveDeclaration.spelling (declaration : DirectiveDeclaration σ) : Language Token :=
  [word "directive", mark .atSign, word declaration.name.value,
    block InputValue.spelling .leftParen .rightParen declaration.arguments,
    if declaration.isRepeatable then word "repeatable" else 1, word "on", optional (mark .pipe),
    separated Located.locationSpelling .pipe declaration.locations].prod

/-- The spelling of a definition or extension. -/
def Definition.spelling : Definition σ → Language Token
  | schema described block => [describing described, block.spelling].prod
  | extendSchema block => [word "extend", block.spelling].prod
  | type described declaration => [describing described, declaration.spelling].prod
  | extendType declaration => [word "extend", declaration.spelling].prod
  | directive described declaration => [describing described, declaration.spelling].prod

/-- The spelling of a document. -/
def Document.spelling (document : Document σ) : Language Token :=
  each Definition.spelling document.definitions

/-- The greatest number of list wrappers around a name. -/
def TypeRef.listDepth : TypeRef → Nat
  | named _ => 0
  | list element => element.listDepth + 1
  | nonNull inner => inner.listDepth

/-- No wrapper that forbids null stands directly in another one. -/
def TypeRef.NonNullApart : TypeRef → Prop
  | named _ => True
  | list element => element.NonNullApart
  | nonNull inner => inner.isNonNull = false ∧ inner.NonNullApart

mutual

/-- The depth to which lists and input objects nest. -/
def Value.depth : Value → Nat
  | list items => itemsDepth items + 1
  | object entries => entriesDepth entries + 1
  | _ => 0

/-- The depth of the deepest item of a list. -/
def Value.itemsDepth : List Value → Nat
  | [] => 0
  | item :: rest => max item.depth (itemsDepth rest)

/-- The depth of the deepest entry of an input object. -/
def Value.entriesDepth : List (String × Value) → Nat
  | [] => 0
  | (_, value) :: rest => max value.depth (entriesDepth rest)

end

/-- The words that stand for constants of their own. -/
def reservedWords : List String := ["true", "false", "null"]

mutual

/-- No enum value in a constant is named like another constant. -/
def Value.EnumsProper : Value → Prop
  | enum name => name ∉ reservedWords
  | list items => itemsProper items
  | object entries => entriesProper entries
  | _ => True

/-- The items of a list are free of such names. -/
def Value.itemsProper : List Value → Prop
  | [] => True
  | item :: rest => item.EnumsProper ∧ itemsProper rest

/-- The entries of an input object are free of such names. -/
def Value.entriesProper : List (String × Value) → Prop
  | [] => True
  | (_, value) :: rest => value.EnumsProper ∧ entriesProper rest

end

/-- What the grammar asks of a type. -/
def TypeRef.Grammatical (type : TypeRef) : Prop :=
  type.NonNullApart ∧ type.listDepth ≤ nestingLimit

/-- What the grammar asks of a constant. -/
def Value.Grammatical (value : Value) : Prop := value.EnumsProper ∧ value.depth ≤ nestingLimit

/-- What the grammar asks of a directive application. -/
def DirectiveUse.Grammatical (use : DirectiveUse σ) : Prop :=
  ∀ argument ∈ use.arguments, argument.value.value.Grammatical

/-- What the grammar asks of an argument definition or a field of an input object type. -/
structure InputValue.Grammatical (input : InputValue σ) : Prop where
  /-- Its type. -/
  type : input.type.type.Grammatical
  /-- Its default value, if there is one. -/
  default : ∀ written ∈ input.default, written.value.Grammatical
  /-- Its directives. -/
  directives : ∀ use ∈ input.directives, use.Grammatical

/-- What the grammar asks of a field. -/
structure Field.Grammatical (field : Field σ) : Prop where
  /-- Its arguments. -/
  arguments : ∀ argument ∈ field.arguments, argument.Grammatical
  /-- Its type. -/
  type : field.type.type.Grammatical
  /-- Its directives. -/
  directives : ∀ use ∈ field.directives, use.Grammatical

/-- What the grammar asks of a value of an enum type. -/
structure EnumValue.Grammatical (value : EnumValue σ) : Prop where
  /-- It is not named like a constant. -/
  name : value.name.value ∉ reservedWords
  /-- Its directives. -/
  directives : ∀ use ∈ value.directives, use.Grammatical

/-- What the grammar asks of the parts of a type. -/
structure TypeBody.Grammatical (body : TypeBody σ) : Prop where
  /-- Its fields. -/
  fields : ∀ field ∈ body.fields, field.Grammatical
  /-- Its input fields. -/
  inputFields : ∀ field ∈ body.inputFields, field.Grammatical
  /-- Its enum values. -/
  values : ∀ value ∈ body.values, value.Grammatical

/-- What the grammar asks of a type declaration. -/
structure TypeDeclaration.Grammatical (declaration : TypeDeclaration σ) : Prop where
  /-- Its directives. -/
  directives : ∀ use ∈ declaration.directives, use.Grammatical
  /-- Its parts. -/
  body : declaration.body.Grammatical

/-- What the grammar asks of a directive declaration. -/
structure DirectiveDeclaration.Grammatical (declaration : DirectiveDeclaration σ) : Prop where
  /-- Its arguments. -/
  arguments : ∀ argument ∈ declaration.arguments, argument.Grammatical
  /-- It can be applied somewhere. -/
  locations : declaration.locations ≠ []

/-- What the grammar asks of a definition or extension. A schema definition names an operation, and
every extension adds something. -/
def Definition.Grammatical : Definition σ → Prop
  | schema _ block => (∀ use ∈ block.directives, use.Grammatical) ∧ block.operations ≠ []
  | extendSchema block => (∀ use ∈ block.directives, use.Grammatical) ∧
      (block.directives ≠ [] ∨ block.operations ≠ [])
  | type _ declaration => declaration.Grammatical
  | extendType declaration => declaration.Grammatical ∧
      (declaration.directives ≠ [] ∨ declaration.body.isEmpty = false)
  | directive _ declaration => declaration.Grammatical

/-- What the grammar asks of a document. -/
structure Document.Grammatical (document : Document σ) : Prop where
  /-- There is something in it. -/
  definitions_ne_nil : document.definitions ≠ []
  /-- Its definitions and extensions. -/
  definitions : ∀ definition ∈ document.definitions, definition.Grammatical

end SdlGraph
