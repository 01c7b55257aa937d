import SdlGraph.Catalog.BuiltIn
import SdlGraph.Diagnostic.Basic
import SdlGraph.Document.Basic

/-!
# Assembling a catalog

A builder goes through the definitions of a document twice: first for the types and directives, so
that extensions always find their target, and then for the extensions, which it merges into their
types, and for the root types that schema definitions and extensions name. The types come in the
order in which their names first came up, followed by every built-in type whose name is not taken.
-/

namespace SdlGraph

variable {σ : Type}

/-- The entry of an argument definition. -/
def InputValue.argumentEntry (input : InputValue σ) : ArgumentEntry :=
  ⟨input.name.value, input.type.type, input.default.map (·.value.render),
    input.description.map (·.value)⟩

/-- The entry of a field of an object or interface type. -/
def Field.entry (field : Field σ) : FieldEntry :=
  ⟨field.name.value, field.type.type, field.arguments.map InputValue.argumentEntry,
    field.description.map (·.value)⟩

/-- The entry of a field of an input object type. Its default value is left out. -/
def InputValue.fieldEntry (input : InputValue σ) : FieldEntry :=
  ⟨input.name.value, input.type.type, [], input.description.map (·.value)⟩

/-- The entry of a directive definition. -/
def DirectiveDeclaration.entry (declaration : DirectiveDeclaration σ) : DirectiveEntry :=
  ⟨declaration.name.value, declaration.locations.map (·.value),
    declaration.arguments.map InputValue.argumentEntry, declaration.isRepeatable, false⟩

/-- A type while extensions are still merged into it. -/
structure PendingType where
  /-- Its kind. -/
  kind : TypeKind
  /-- Its description. -/
  description : Option String
  /-- The fields so far. -/
  fields : List FieldEntry
  /-- The interfaces so far. -/
  interfaces : List String
  /-- The members of a union so far. -/
  possibleTypes : List String
  /-- The values of an enum so far. -/
  enumValues : List String
  deriving DecidableEq, Repr

namespace PendingType

/-- A type without content. -/
def new (kind : TypeKind) (description : Option String) : PendingType :=
  ⟨kind, description, [], [], [], []⟩

/-- Add the content of a definition or extension behind what there is. -/
def merge (pending : PendingType) (body : TypeBody σ) : PendingType :=
  { pending with
    interfaces := pending.interfaces ++ body.interfaces.map (·.value)
    fields := pending.fields ++ body.fields.map Field.entry ++
      body.inputFields.map InputValue.fieldEntry
    possibleTypes := pending.possibleTypes ++ body.members.map (·.value)
    enumValues := pending.enumValues ++ body.values.map (·.name.value) }

/-- The entry of a type that is complete. -/
def entry (pending : PendingType) (name : String) : TypeEntry where
  name := name
  kind := pending.kind
  fields := pending.fields
  interfaces := pending.interfaces
  possibleTypes := pending.possibleTypes
  enumValues := pending.enumValues
  description := pending.description
  isBuiltIn := false

end PendingType

/-- An extension whose type is not defined. -/
structure MissingTarget (σ : Type) where
  /-- The name of the type extended. -/
  name : Located σ String
  deriving Repr

/-- The diagnostic of a missing target. -/
def MissingTarget.diagnostic (missing : MissingTarget σ) : Diagnostic σ :=
  ⟨some .assemblyFailure, "cannot extend undefined type `" ++ missing.name.value ++ "`",
    [.primary missing.name.place "extension target missing"], none⟩

/-- What is gathered of a catalog on the way through a document. -/
structure Builder where
  /-- The types defined, by name. -/
  types : Roster (String × PendingType)
  /-- The directives, by name. -/
  directives : Roster DirectiveEntry
  /-- The root types that the schema blocks name. -/
  declaredRoots : RootTypes
  /-- Whether there was a schema block. -/
  hasSchemaDefinition : Bool
  deriving DecidableEq, Repr

namespace Builder

/-- A builder that has only seen what is built in. -/
def new : Builder :=
  ⟨Roster.empty, Roster.ofList BuiltIn.directives, ⟨none, none, none⟩, false⟩

/-- Take up the definition of a type. -/
def addType (builder : Builder) (description : Option (Located σ String))
    (declaration : TypeDeclaration σ) : Builder :=
  let pending := PendingType.new declaration.kind (description.map (·.value))
  { builder with
    types := builder.types.put (declaration.name.value, pending.merge declaration.body) }

/-- Merge an extension into the type of its name. -/
def extendType (builder : Builder) (declaration : TypeDeclaration σ) :
    Except (MissingTarget σ) Builder :=
  match builder.types.get? declaration.name.value with
  | none => .error ⟨declaration.name⟩
  | some (name, pending) =>
    .ok { builder with types := builder.types.put (name, pending.merge declaration.body) }

/-- Take up the definition of a directive. -/
def addDirective (builder : Builder) (declaration : DirectiveDeclaration σ) : Builder :=
  { builder with directives := builder.directives.put declaration.entry }

/-- Take note of the root types that a schema block names. -/
def addSchema (builder : Builder) (block : SchemaBlock σ) : Builder :=
  { builder with
    hasSchemaDefinition := true
    declaredRoots := block.operations.foldl
      (fun roots root => roots.set root.operation.value root.type.value) builder.declaredRoots }

/-- The first time through: definitions of types and directives. -/
def addDefinition (builder : Builder) : Definition σ → Builder
  | .type description declaration => builder.addType description declaration
  | .directive _ declaration => builder.addDirective declaration
  | _ => builder

/-- The second time through: extensions of types, and schema blocks. -/
def mergeDefinition (builder : Builder) : Definition σ → Except (MissingTarget σ) Builder
  | .extendType declaration => builder.extendType declaration
  | .schema _ block => .ok (builder.addSchema block)
  | .extendSchema block => .ok (builder.addSchema block)
  | _ => .ok builder

/-- The type that serves an operation: the one named for it or, where there was no schema block,
the object type of the conventional name. -/
def root? (builder : Builder) (kind : OperationKind) : Option String :=
  if builder.hasSchemaDefinition then builder.declaredRoots.get kind
  else
    match builder.types.get? kind.defaultTypeName with
    | some (_, pending) => if pending.kind = .object then some kind.defaultTypeName else none
    | none => none

/-- The types defined, followed by every built-in type whose name is not taken. -/
def finishTypes (builder : Builder) : Roster TypeEntry :=
  let own := builder.types.entries.map fun (name, pending) => pending.entry name
  BuiltIn.types.foldl Roster.putIfNew (Roster.ofList own)

/-- The catalog of what was gathered. -/
def finish (builder : Builder) : Catalog :=
  ⟨builder.finishTypes, builder.directives, .ofFunction builder.root?⟩

end Builder

/-- The catalog of a document, unless an extension has no type to extend. -/
def Document.assemble (document : Document σ) : Except (MissingTarget σ) Catalog := do
  let defined := document.definitions.foldl Builder.addDefinition .new
  let merged ← document.definitions.foldlM Builder.mergeDefinition defined
  pure merged.finish

end SdlGraph
