import SdlGraph.Document.Value
import SdlGraph.Text.Span
import SdlGraph.TypeSystem.Kind
import SdlGraph.TypeSystem.TypeRef

/-!
# Documents

A document is a list of definitions and extensions of a type system. Names, descriptions and larger
parts carry the place they were read from, and the kind of place is a parameter: token ranges while
a document is read and checked, byte ranges when it is shown, nothing where only the content
matters. `Document.mapPlace` changes the places and nothing else.
-/

namespace SdlGraph

/-- A range of tokens of a document, given by the indices of its first token and of the token
after its last. -/
structure Extent where
  /-- Index of the first token. -/
  first : Nat
  /-- Index after the last token. -/
  stop : Nat
  deriving DecidableEq, Repr

/-- The smallest range that covers both. -/
def Extent.union (left right : Extent) : Extent :=
  ⟨min left.first right.first, max left.stop right.stop⟩

/-- The byte range of a range of tokens, given the byte range of each token. -/
def Extent.locate (tokens : Array Span) (extent : Extent) : Span :=
  Span.between (((tokens[extent.first]?).map (·.start)).getD 0)
    (((tokens[extent.stop - 1]?).map (·.stop)).getD 0)

/-- A type as written after a colon. -/
structure TypeUse (σ : Type) where
  /-- The type with its wrappers. -/
  type : TypeRef
  /-- Where it stands. -/
  place : σ
  /-- Where the name under the wrappers stands. -/
  namePlace : σ
  deriving DecidableEq, Repr

/-- An argument given to a directive. -/
structure Argument (σ : Type) where
  /-- Its name. -/
  name : Located σ String
  /-- Its value. -/
  value : Located σ Value
  deriving Repr

/-- A directive applied to something. -/
structure DirectiveUse (σ : Type) where
  /-- The name of the directive. -/
  name : Located σ String
  /-- The arguments given to it. -/
  arguments : List (Argument σ)
  /-- Where the whole application stands. -/
  place : σ
  deriving Repr

/-- An argument of a field or directive, or a field of an input object type. -/
structure InputValue (σ : Type) where
  /-- Its description. -/
  description : Option (Located σ String)
  /-- Its name. -/
  name : Located σ String
  /-- Its type. -/
  type : TypeUse σ
  /-- The value it takes when none is given. -/
  default : Option (Located σ Value)
  /-- The directives applied to it. -/
  directives : List (DirectiveUse σ)
  deriving Repr

/-- A field of an object or interface type. -/
structure Field (σ : Type) where
  /-- Its description. -/
  description : Option (Located σ String)
  /-- Its name. -/
  name : Located σ String
  /-- Its arguments. -/
  arguments : List (InputValue σ)
  /-- Its type. -/
  type : TypeUse σ
  /-- The directives applied to it. -/
  directives : List (DirectiveUse σ)
  deriving Repr

/-- A value of an enum type. -/
structure EnumValue (σ : Type) where
  /-- Its description. -/
  description : Option (Located σ String)
  /-- Its name. -/
  name : Located σ String
  /-- The directives applied to it. -/
  directives : List (DirectiveUse σ)
  deriving Repr

/-- What a type of each kind consists of. -/
inductive TypeBody (σ : Type) where
  /-- The interfaces and fields of an object type. -/
  | object (interfaces : List (Located σ String)) (fields : List (Field σ))
  /-- The interfaces and fields of an interface type. -/
  | interface (interfaces : List (Located σ String)) (fields : List (Field σ))
  /-- The members of a union. -/
  | union (members : List (Located σ String))
  /-- The values of an enum. -/
  | enum (values : List (EnumValue σ))
  /-- The fields of an input object type. -/
  | inputObject (fields : List (InputValue σ))
  /-- A scalar has no parts. -/
  | scalar
  deriving Repr

namespace TypeBody

variable {σ : Type}

/-- The kind of type. -/
def kind : TypeBody σ → TypeKind
  | object _ _ => .object
  | interface _ _ => .interface
  | union _ => .union
  | enum _ => .enum
  | inputObject _ => .inputObject
  | scalar => .scalar

/-- The interfaces a type implements. -/
def interfaces : TypeBody σ → List (Located σ String)
  | object interfaces _ => interfaces
  | interface interfaces _ => interfaces
  | _ => []

/-- The fields of an object or interface type. -/
def fields : TypeBody σ → List (Field σ)
  | object _ fields => fields
  | interface _ fields => fields
  | _ => []

/-- The fields of an input object type. -/
def inputFields : TypeBody σ → List (InputValue σ)
  | inputObject fields => fields
  | _ => []

/-- The members of a union. -/
def members : TypeBody σ → List (Located σ String)
  | union members => members
  | _ => []

/-- The values of an enum. -/
def values : TypeBody σ → List (EnumValue σ)
  | enum values => values
  | _ => []

/-- Whether a body has no parts at all. -/
def isEmpty (body : TypeBody σ) : Bool :=
  body.interfaces.isEmpty && body.fields.isEmpty && body.inputFields.isEmpty &&
    body.members.isEmpty && body.values.isEmpty

end TypeBody

/-- A type, or what an extension adds to one. -/
structure TypeDeclaration (σ : Type) where
  /-- The name of the type. -/
  name : Located σ String
  /-- The directives applied to it. -/
  directives : List (DirectiveUse σ)
  /-- Its parts. -/
  body : TypeBody σ
  /-- Where the whole definition or extension stands. -/
  place : σ
  deriving Repr

/-- The kind of type declared. -/
def TypeDeclaration.kind {σ : Type} (declaration : TypeDeclaration σ) : TypeKind :=
  declaration.body.kind

/-- A root operation and the type that serves it. -/
structure RootOperation (σ : Type) where
  /-- The operation. -/
  operation : Located σ OperationKind
  /-- The name of its type. -/
  type : Located σ String
  deriving Repr

/-- A schema, or what an extension adds to it. -/
structure SchemaBlock (σ : Type) where
  /-- The directives applied to it. -/
  directives : List (DirectiveUse σ)
  /-- The root operations it names. -/
  operations : List (RootOperation σ)
  /-- Where the whole definition or extension stands. -/
  place : σ
  deriving Repr

/-- A directive. -/
structure DirectiveDeclaration (σ : Type) where
  /-- Its name. -/
  name : Located σ String
  /-- Its arguments. -/
  arguments : List (InputValue σ)
  /-- Whether it can be applied more than once at a place. -/
  isRepeatable : Bool
  /-- The places at which it can be applied. -/
  locations : List (Located σ DirectiveLocation)
  /-- Where the whole definition stands. -/
  place : σ
  deriving Repr

/-- A definition or an extension. Only definitions have descriptions. -/
inductive Definition (σ : Type) where
  /-- A schema definition. -/
  | schema (description : Option (Located σ String)) (block : SchemaBlock σ)
  /-- An extension of the schema. -/
  | extendSchema (block : SchemaBlock σ)
  /-- A type definition. -/
  | type (description : Option (Located σ String)) (declaration : TypeDeclaration σ)
  /-- An extension of a type. -/
  | extendType (declaration : TypeDeclaration σ)
  /-- A directive definition. -/
  | directive (description : Option (Located σ String)) (declaration : DirectiveDeclaration σ)
  deriving Repr

/-- Where a definition stands, description and keywords included. -/
def Definition.place {σ : Type} : Definition σ → σ
  | schema _ block => block.place
  | extendSchema block => block.place
  | type _ declaration => declaration.place
  | extendType declaration => declaration.place
  | directive _ declaration => declaration.place

/-- A document, definition by definition. -/
structure Document (σ : Type) where
  /-- The definitions and extensions, in written order. -/
  definitions : List (Definition σ)
  deriving Repr

variable {σ τ : Type} (f : σ → τ)

/-- Move a type use to another kind of place. -/
def TypeUse.mapPlace (written : TypeUse σ) : TypeUse τ :=
  ⟨written.type, f written.place, f written.namePlace⟩

/-- Move an argument to another kind of place. -/
def Argument.mapPlace (argument : Argument σ) : Argument τ :=
  ⟨argument.name.mapPlace f, argument.value.mapPlace f⟩

/-- Move a directive application to another kind of place. -/
def DirectiveUse.mapPlace (use : DirectiveUse σ) : DirectiveUse τ :=
  ⟨use.name.mapPlace f, use.arguments.map (·.mapPlace f), f use.place⟩

/-- Move an input value to another kind of place. -/
def InputValue.mapPlace (input : InputValue σ) : InputValue τ :=
  ⟨input.description.map (·.mapPlace f), input.name.mapPlace f, input.type.mapPlace f,
    input.default.map (·.mapPlace f), input.directives.map (·.mapPlace f)⟩

/-- Move a field to another kind of place. -/
def Field.mapPlace (field : Field σ) : Field τ :=
  ⟨field.description.map (·.mapPlace f), field.name.mapPlace f,
    field.arguments.map (·.mapPlace f), field.type.mapPlace f,
    field.directives.map (·.mapPlace f)⟩

/-- Move an enum value to another kind of place. -/
def EnumValue.mapPlace (value : EnumValue σ) : EnumValue τ :=
  ⟨value.description.map (·.mapPlace f), value.name.mapPlace f,
    value.directives.map (·.mapPlace f)⟩

/-- Move the parts of a type to another kind of place. -/
def TypeBody.mapPlace : TypeBody σ → TypeBody τ
  | object interfaces fields =>
    object (interfaces.map (·.mapPlace f)) (fields.map (·.mapPlace f))
  | interface interfaces fields =>
    interface (interfaces.map (·.mapPlace f)) (fields.map (·.mapPlace f))
  | union members => union (members.map (·.mapPlace f))
  | enum values => enum (values.map (·.mapPlace f))
  | inputObject fields => inputObject (fields.map (·.mapPlace f))
  | scalar => scalar

/-- Move a type declaration to another kind of place. -/
def TypeDeclaration.mapPlace (declaration : TypeDeclaration σ) : TypeDeclaration τ :=
  ⟨declaration.name.mapPlace f, declaration.directives.map (·.mapPlace f),
    declaration.body.mapPlace f, f declaration.place⟩

/-- Move a root operation to another kind of place. -/
def RootOperation.mapPlace (root : RootOperation σ) : RootOperation τ :=
  ⟨root.operation.mapPlace f, root.type.mapPlace f⟩

/-- Move a schema block to another kind of place. -/
def SchemaBlock.mapPlace (block : SchemaBlock σ) : SchemaBlock τ :=
  ⟨block.directives.map (·.mapPlace f), block.operations.map (·.mapPlace f), f block.place⟩

/-- Move a directive declaration to another kind of place. -/
def DirectiveDeclaration.mapPlace (declaration : DirectiveDeclaration σ) :
    DirectiveDeclaration τ :=
  ⟨declaration.name.mapPlace f, declaration.arguments.map (·.mapPlace f),
    declaration.isRepeatable, declaration.locations.map (·.mapPlace f), f declaration.place⟩

/-- Move a definition to another kind of place. -/
def Definition.mapPlace : Definition σ → Definition τ
  | schema description block => schema (description.map (·.mapPlace f)) (block.mapPlace f)
  | extendSchema block => extendSchema (block.mapPlace f)
  | type description declaration =>
    type (description.map (·.mapPlace f)) (declaration.mapPlace f)
  | extendType declaration => extendType (declaration.mapPlace f)
  | directive description declaration =>
    directive (description.map (·.mapPlace f)) (declaration.mapPlace f)

/-- Move a document to another kind of place. -/
def Document.mapPlace (document : Document σ) : Document τ :=
  ⟨document.definitions.map (·.mapPlace f)⟩

end SdlGraph
