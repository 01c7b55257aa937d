import SdlGraph.Validation.Declared

/-!
# Sound documents

What it means for a document to be sound, without any order of checking: names are distinct, every
name of a type or directive refers to something, directives stand where they may, root operations
are served by object types, and extensions fit the types they extend. The places of names and
directives are listed by relations, one case for each place the grammar has.
-/

namespace SdlGraph

variable {σ : Type}

/-- The type declaration of a type definition or extension. -/
def Definition.typeDeclaration? : Definition σ → Option (TypeDeclaration σ)
  | type _ declaration => some declaration
  | extendType declaration => some declaration
  | _ => none

/-- The names of the members that a definition or extension gives to a type of some name. -/
def Definition.memberNames (name : String) (definition : Definition σ) : List String :=
  match definition.typeDeclaration? with
  | some declaration =>
    if declaration.name.value = name then declaration.body.memberNames.map (·.value) else []
  | none => []

namespace Document

/-- The extensions of types, in written order. -/
def typeExtensions (document : Document σ) : List (TypeDeclaration σ) :=
  document.definitions.filterMap fun
    | .extendType declaration => some declaration
    | _ => none

/-- The definitions of types with their descriptions, in written order. -/
def typeDefinitions (document : Document σ) :
    List (Option (Located σ String) × TypeDeclaration σ) :=
  document.definitions.filterMap fun
    | .type description declaration => some (description, declaration)
    | _ => none

/-- The definitions of directives, in written order. -/
def directiveDefinitions (document : Document σ) : List (DirectiveDeclaration σ) :=
  document.definitions.filterMap fun
    | .directive _ declaration => some declaration
    | _ => none

/-- The definitions and extensions of the schema, in written order. -/
def schemaBlocks (document : Document σ) : List (SchemaBlock σ) :=
  document.definitions.filterMap fun
    | .schema _ block => some block
    | .extendSchema block => some block
    | _ => none

variable (document : Document σ)

/-- The declarations of types in definitions and extensions, in written order. -/
def typeDeclarations : List (TypeDeclaration σ) :=
  document.definitions.filterMap Definition.typeDeclaration?

/-- The names of the members that a type has from its definition and all its extensions. -/
def memberNames (name : String) : List String :=
  document.definitions.flatMap (Definition.memberNames name)

/-- The root operations that all schema blocks name. -/
def operations : List (RootOperation σ) := document.definitions.flatMap Definition.operations

/-- A directive is applied somewhere in a document, at a location. -/
inductive Applies : DirectiveUse σ → DirectiveLocation → Prop where
  /-- On a schema definition or extension. -/
  | schema {block : SchemaBlock σ} {use : DirectiveUse σ} (hb : block ∈ document.schemaBlocks)
      (hu : use ∈ block.directives) : Applies use .schema
  /-- On a type definition or extension. -/
  | type {declaration : TypeDeclaration σ} {use : DirectiveUse σ}
      (hd : declaration ∈ document.typeDeclarations) (hu : use ∈ declaration.directives) :
      Applies use (.ofKind declaration.kind)
  /-- On a field of an object or interface type. -/
  | field {declaration : TypeDeclaration σ} {field : Field σ} {use : DirectiveUse σ}
      (hd : declaration ∈ document.typeDeclarations) (hf : field ∈ declaration.body.fields)
      (hu : use ∈ field.directives) : Applies use .fieldDefinition
  /-- On an argument of a field. -/
  | fieldArgument {declaration : TypeDeclaration σ} {field : Field σ} {argument : InputValue σ}
      {use : DirectiveUse σ} (hd : declaration ∈ document.typeDeclarations)
      (hf : field ∈ declaration.body.fields) (ha : argument ∈ field.arguments)
      (hu : use ∈ argument.directives) : Applies use .argumentDefinition
  /-- On a field of an input object type. -/
  | inputField {declaration : TypeDeclaration σ} {field : InputValue σ} {use : DirectiveUse σ}
      (hd : declaration ∈ document.typeDeclarations) (hf : field ∈ declaration.body.inputFields)
      (hu : use ∈ field.directives) : Applies use .inputFieldDefinition
  /-- On a value of an enum type. -/
  | enumValue {declaration : TypeDeclaration σ} {value : EnumValue σ} {use : DirectiveUse σ}
      (hd : declaration ∈ document.typeDeclarations) (hv : value ∈ declaration.body.values)
      (hu : use ∈ value.directives) : Applies use .enumValue
  /-- On an argument of a directive definition. -/
  | directiveArgument {declaration : DirectiveDeclaration σ} {argument : InputValue σ}
      {use : DirectiveUse σ} (hd : declaration ∈ document.directiveDefinitions)
      (ha : argument ∈ declaration.arguments) (hu : use ∈ argument.directives) :
      Applies use .argumentDefinition

/-- A document refers to a type by its name, under any wrappers, other than for a root operation. -/
inductive Mentions : String → Prop where
  /-- As the type of a field. -/
  | field {declaration : TypeDeclaration σ} {field : Field σ}
      (hd : declaration ∈ document.typeDeclarations) (hf : field ∈ declaration.body.fields) :
      Mentions field.type.type.baseName
  /-- As the type of an argument of a field. -/
  | fieldArgument {declaration : TypeDeclaration σ} {field : Field σ} {argument : InputValue σ}
      (hd : declaration ∈ document.typeDeclarations) (hf : field ∈ declaration.body.fields)
      (ha : argument ∈ field.arguments) : Mentions argument.type.type.baseName
  /-- As the type of a field of an input object type. -/
  | inputField {declaration : TypeDeclaration σ} {field : InputValue σ}
      (hd : declaration ∈ document.typeDeclarations) (hf : field ∈ declaration.body.inputFields) :
      Mentions field.type.type.baseName
  /-- As the type of an argument of a directive definition. -/
  | directiveArgument {declaration : DirectiveDeclaration σ} {argument : InputValue σ}
      (hd : declaration ∈ document.directiveDefinitions)
      (ha : argument ∈ declaration.arguments) : Mentions argument.type.type.baseName
  /-- As an interface of a type. -/
  | interface {declaration : TypeDeclaration σ} {name : Located σ String}
      (hd : declaration ∈ document.typeDeclarations)
      (hn : name ∈ declaration.body.interfaces) : Mentions name.value
  /-- As a member of a union. -/
  | member {declaration : TypeDeclaration σ} {name : Located σ String}
      (hd : declaration ∈ document.typeDeclarations) (hn : name ∈ declaration.body.members) :
      Mentions name.value

/-- A document has a list of arguments with these names. -/
inductive HasArguments : List String → Prop where
  /-- The arguments of a field. -/
  | field {declaration : TypeDeclaration σ} {field : Field σ}
      (hd : declaration ∈ document.typeDeclarations) (hf : field ∈ declaration.body.fields) :
      HasArguments (field.arguments.map (·.name.value))
  /-- The arguments of a directive definition. -/
  | directive {declaration : DirectiveDeclaration σ}
      (hd : declaration ∈ document.directiveDefinitions) :
      HasArguments (declaration.arguments.map (·.name.value))
  /-- The arguments given to a directive. -/
  | application {use : DirectiveUse σ} {location : DirectiveLocation}
      (h : document.Applies use location) : HasArguments (use.arguments.map (·.name.value))

/-- A name is that of a defined or built-in type. -/
def Knows (name : String) : Prop :=
  (∃ defined ∈ document.typeDefinitions, defined.2.name.value = name) ∨
    name ∈ builtInScalars ∨ name ∈ introspectionTypes

/-- A built-in or defined directive of a name lists a location. -/
def Allows (name : String) (location : DirectiveLocation) : Prop :=
  (∃ entry ∈ BuiltIn.directives, entry.name = name ∧ location ∈ entry.locations) ∨
    ∃ declaration ∈ document.directiveDefinitions,
      declaration.name.value = name ∧ location ∈ declaration.locations.map (·.value)

/-- The names of the types and directives that a document defines are distinct, and none is taken
by what is built in; only a scalar type may repeat the name of a built-in scalar type. -/
structure NamesSound : Prop where
  /-- No type is defined twice. -/
  types_nodup : (document.typeDefinitions.map (·.2.name.value)).Nodup
  /-- No introspection type is defined. -/
  types_not_introspection : ∀ defined ∈ document.typeDefinitions,
    defined.2.name.value ∉ introspectionTypes
  /-- A built-in scalar type is defined as a scalar type only. -/
  types_scalar : ∀ defined ∈ document.typeDefinitions,
    defined.2.name.value ∈ builtInScalars → defined.2.kind = .scalar
  /-- No directive is defined twice. -/
  directives_nodup : (document.directiveDefinitions.map (·.name.value)).Nodup
  /-- No built-in directive is defined. -/
  directives_not_builtIn : ∀ declaration ∈ document.directiveDefinitions,
    declaration.name.value ∉ BuiltIn.directives.map (·.name)

/-- A document is structurally sound. -/
structure Sound : Prop extends document.NamesSound where
  /-- The members of a type are distinct over its definition and all its extensions. -/
  members_nodup : ∀ name, (document.memberNames name).Nodup
  /-- Arguments are distinct wherever they are listed. -/
  arguments_nodup : ∀ names, document.HasArguments names → names.Nodup
  /-- Every type referred to is known. -/
  types_known : ∀ name, document.Mentions name → document.Knows name
  /-- Every directive is applied where it may be. -/
  directives_allowed : ∀ use location, document.Applies use location →
    document.Allows use.name.value location
  /-- The schema is defined at most once. -/
  schema_unique : (document.definitions.filterMap Definition.schemaPlace?).length ≤ 1
  /-- No root operation is named twice. -/
  operations_nodup : (document.operations.map (·.operation.value)).Nodup
  /-- Root operations are served by defined object types. -/
  roots_object : ∀ root ∈ document.operations, ∃ defined ∈ document.typeDefinitions,
    defined.2.name.value = root.type.value ∧ defined.2.kind = .object
  /-- Extensions extend a defined type of their kind. -/
  extensions_fit : ∀ extension ∈ document.typeExtensions, ∃ defined ∈ document.typeDefinitions,
    defined.2.name.value = extension.name.value ∧ defined.2.kind = extension.kind

end Document

end SdlGraph
