import SdlGraph.Catalog.Roster
import SdlGraph.TypeSystem.Kind
import SdlGraph.TypeSystem.TypeRef

/-!
# Catalogs

A catalog lists the types and directives of a schema by name, in order of declaration, followed by
what is built in, and tells which types serve the root operations.
-/

namespace SdlGraph

/-- An argument of a field or directive. -/
structure ArgumentEntry where
  /-- Its name. -/
  name : String
  /-- Its type. -/
  type : TypeRef
  /-- The value it takes when none is given, as schema text. -/
  default : Option String
  /-- Its description. -/
  description : Option String
  deriving DecidableEq, Repr

/-- A field of an object, interface or input object type. -/
structure FieldEntry where
  /-- Its name. -/
  name : String
  /-- Its type. -/
  type : TypeRef
  /-- Its arguments. -/
  arguments : List ArgumentEntry
  /-- Its description. -/
  description : Option String
  deriving DecidableEq, Repr

namespace FieldEntry

/-- The name of the type a field leads to. -/
def target (field : FieldEntry) : String := field.type.baseName

/-- A field in one line: its name and its type. -/
def summary (field : FieldEntry) : String := field.name ++ ": " ++ field.type.render

end FieldEntry

/-- A named type. -/
structure TypeEntry where
  /-- Its name. -/
  name : String
  /-- Its kind. -/
  kind : TypeKind
  /-- Its fields. -/
  fields : List FieldEntry
  /-- The interfaces it implements. -/
  interfaces : List String
  /-- The members of a union. -/
  possibleTypes : List String
  /-- The values of an enum. -/
  enumValues : List String
  /-- Its description. -/
  description : Option String
  /-- Whether it belongs to the language itself. -/
  isBuiltIn : Bool
  deriving DecidableEq, Repr

namespace TypeEntry

instance : Named TypeEntry := ⟨TypeEntry.name⟩

/-- The first field of a name. -/
def field? (type : TypeEntry) (name : String) : Option FieldEntry :=
  type.fields.find? (·.name == name)

/-- Whether a type becomes a node of the graph. -/
def isComposite (type : TypeEntry) : Bool := type.kind.isComposite

end TypeEntry

/-- A directive. -/
structure DirectiveEntry where
  /-- Its name. -/
  name : String
  /-- The places at which it can be applied. -/
  locations : List DirectiveLocation
  /-- Its arguments. -/
  arguments : List ArgumentEntry
  /-- Whether it can be applied more than once at a place. -/
  isRepeatable : Bool
  /-- Whether it belongs to the language itself. -/
  isBuiltIn : Bool
  deriving DecidableEq, Repr

instance : Named DirectiveEntry := ⟨DirectiveEntry.name⟩

/-- The types that serve the root operations. -/
structure RootTypes where
  /-- The type that serves queries. -/
  query : Option String
  /-- The type that serves mutations. -/
  mutation : Option String
  /-- The type that serves subscriptions. -/
  subscription : Option String
  deriving DecidableEq, Repr

namespace RootTypes

/-- The type that serves an operation. -/
def get (roots : RootTypes) : OperationKind → Option String
  | .query => roots.query
  | .mutation => roots.mutation
  | .subscription => roots.subscription

/-- Let a type serve an operation. -/
def set (roots : RootTypes) (kind : OperationKind) (name : String) : RootTypes :=
  match kind with
  | .query => { roots with query := some name }
  | .mutation => { roots with mutation := some name }
  | .subscription => { roots with subscription := some name }

theorem get_set (roots : RootTypes) (kind other : OperationKind) (name : String) :
    (roots.set kind name).get other = if kind = other then some name else roots.get other := by
  cases kind <;> cases other <;> rfl

/-- The root types given by a function. -/
def ofFunction (root : OperationKind → Option String) : RootTypes :=
  ⟨root .query, root .mutation, root .subscription⟩

theorem get_ofFunction (root : OperationKind → Option String) (kind : OperationKind) :
    (ofFunction root).get kind = root kind := by
  cases kind <;> rfl

end RootTypes

/-- The types, directives and root types of a schema. -/
@[ext]
structure Catalog where
  /-- The types, by name. -/
  types : Roster TypeEntry
  /-- The directives, by name. -/
  directives : Roster DirectiveEntry
  /-- The types that serve the root operations. -/
  roots : RootTypes
  deriving DecidableEq, Repr

namespace Catalog

/-- A catalog of types alone; a later type replaces an earlier one of its name. -/
def ofTypes (types : List TypeEntry) : Catalog :=
  ⟨Roster.ofList types, Roster.empty, ⟨none, none, none⟩⟩

/-- The type of a name. -/
def type? (catalog : Catalog) (name : String) : Option TypeEntry := catalog.types.get? name

/-- The types that the schema itself declares. -/
def ownTypes (catalog : Catalog) : List TypeEntry :=
  catalog.types.entries.filter fun type => !type.isBuiltIn

/-- The types that can become nodes of the graph. -/
def compositeTypes (catalog : Catalog) : List TypeEntry :=
  catalog.types.entries.filter TypeEntry.isComposite

end Catalog

end SdlGraph
