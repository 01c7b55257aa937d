import SdlGraph.Document.Basic

/-!
# Walking through a document

A walk meets every directive application together with the location of its place, every type
annotation, and every bare reference to a type: interfaces, union members and the types of root
operations. `Document.events` lists what a walk meets, in order.
-/

namespace SdlGraph

/-- Something met on a walk through a document. -/
inductive Event (σ : Type) where
  /-- A directive applied at a location. -/
  | directive (applied : DirectiveUse σ) (location : DirectiveLocation)
  /-- The type of a field, argument or input field. -/
  | typeUse (type : TypeUse σ)
  /-- The bare name of a type. -/
  | reference (name : Located σ String)
  deriving Repr

variable {σ : Type}

/-- What a walk meets at directives applied at one location. -/
def DirectiveUse.events (location : DirectiveLocation) (uses : List (DirectiveUse σ)) :
    List (Event σ) :=
  uses.map (.directive · location)

/-- What a walk meets in an input value that stands at a location. -/
def InputValue.events (location : DirectiveLocation) (input : InputValue σ) : List (Event σ) :=
  .typeUse input.type :: DirectiveUse.events location input.directives

/-- What a walk meets in a field: its arguments, its type and its directives. -/
def Field.events (field : Field σ) : List (Event σ) :=
  field.arguments.flatMap (InputValue.events .argumentDefinition) ++
    .typeUse field.type :: DirectiveUse.events .fieldDefinition field.directives

/-- What a walk meets in an enum value. -/
def EnumValue.events (value : EnumValue σ) : List (Event σ) :=
  DirectiveUse.events .enumValue value.directives

/-- What a walk meets in a type: interfaces, directives, then the parts of its body. -/
def TypeDeclaration.events (declaration : TypeDeclaration σ) : List (Event σ) :=
  declaration.body.interfaces.map .reference ++
    DirectiveUse.events (.ofKind declaration.kind) declaration.directives ++
    declaration.body.fields.flatMap Field.events ++
    declaration.body.inputFields.flatMap (InputValue.events .inputFieldDefinition) ++
    declaration.body.members.map .reference ++
    declaration.body.values.flatMap EnumValue.events

/-- What a walk meets in a schema block. -/
def SchemaBlock.events (block : SchemaBlock σ) : List (Event σ) :=
  DirectiveUse.events .schema block.directives ++ block.operations.map (.reference ·.type)

/-- What a walk meets in a directive declaration. -/
def DirectiveDeclaration.events (declaration : DirectiveDeclaration σ) : List (Event σ) :=
  declaration.arguments.flatMap (InputValue.events .argumentDefinition)

/-- What a walk meets in a definition or extension. -/
def Definition.events : Definition σ → List (Event σ)
  | schema _ block => block.events
  | extendSchema block => block.events
  | type _ declaration => declaration.events
  | extendType declaration => declaration.events
  | directive _ declaration => declaration.events

/-- What a walk through a document meets, in order. -/
def Document.events (document : Document σ) : List (Event σ) :=
  document.definitions.flatMap Definition.events

end SdlGraph
