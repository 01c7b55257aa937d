/-!
# Kinds of definitions and places of directives

The six kinds of named types with their keywords, the three root operations, and the places at
which a directive can be applied. The names of built-in types stand here as well.
-/

namespace SdlGraph

/-- The kinds of named types. -/
inductive TypeKind where
  /-- A type with fields. -/
  | object
  /-- A set of fields that object types promise. -/
  | interface
  /-- A choice between object types. -/
  | union
  /-- A choice between names. -/
  | enum
  /-- A structured argument. -/
  | inputObject
  /-- A type of leaves. -/
  | scalar
  deriving DecidableEq, Repr

namespace TypeKind

/-- The keyword that introduces a kind. -/
def keyword : TypeKind → String
  | object => "type"
  | interface => "interface"
  | union => "union"
  | enum => "enum"
  | inputObject => "input"
  | scalar => "scalar"

/-- The kind that a keyword introduces. -/
def ofKeyword? : String → Option TypeKind
  | "type" => some object
  | "interface" => some interface
  | "union" => some union
  | "enum" => some enum
  | "input" => some inputObject
  | "scalar" => some scalar
  | _ => none

/-- The name of a kind in introspection and in messages. -/
def label : TypeKind → String
  | object => "OBJECT"
  | interface => "INTERFACE"
  | union => "UNION"
  | enum => "ENUM"
  | inputObject => "INPUT_OBJECT"
  | scalar => "SCALAR"

/-- Whether types of a kind become nodes of the graph. -/
def isComposite : TypeKind → Bool
  | object => true
  | interface => true
  | _ => false

theorem ofKeyword?_keyword (kind : TypeKind) : ofKeyword? kind.keyword = some kind := by
  cases kind <;> rfl

end TypeKind

/-- The root operations. -/
inductive OperationKind where
  /-- Reading. -/
  | query
  /-- Writing. -/
  | mutation
  /-- Following events. -/
  | subscription
  deriving DecidableEq, Repr

namespace OperationKind

/-- The keyword of an operation. -/
def keyword : OperationKind → String
  | query => "query"
  | mutation => "mutation"
  | subscription => "subscription"

/-- The operation with a keyword. -/
def ofKeyword? : String → Option OperationKind
  | "query" => some query
  | "mutation" => some mutation
  | "subscription" => some subscription
  | _ => none

/-- The type that serves an operation when no schema definition names one. -/
def defaultTypeName : OperationKind → String
  | query => "Query"
  | mutation => "Mutation"
  | subscription => "Subscription"

theorem ofKeyword?_eq_some_iff {word : String} {kind : OperationKind} :
    ofKeyword? word = some kind ↔ word = kind.keyword := by
  constructor
  · intro h
    unfold ofKeyword? at h
    split at h <;> cases h <;> rfl
  · rintro rfl
    cases kind <;> rfl

end OperationKind

/-- The places at which a directive can be applied. -/
inductive DirectiveLocation where
  /-- A query. -/
  | query
  /-- A mutation. -/
  | mutation
  /-- A subscription. -/
  | subscription
  /-- A selected field. -/
  | field
  /-- A fragment. -/
  | fragmentDefinition
  /-- A use of a fragment. -/
  | fragmentSpread
  /-- A fragment without a name. -/
  | inlineFragment
  /-- A variable of an operation. -/
  | variableDefinition
  /-- A schema definition. -/
  | schema
  /-- A scalar type. -/
  | scalar
  /-- An object type. -/
  | object
  /-- A field of a type. -/
  | fieldDefinition
  /-- An argument of a field or directive. -/
  | argumentDefinition
  /-- An interface type. -/
  | interface
  /-- A union type. -/
  | union
  /-- An enum type. -/
  | enum
  /-- A value of an enum type. -/
  | enumValue
  /-- An input object type. -/
  | inputObject
  /-- A field of an input object type. -/
  | inputFieldDefinition
  deriving DecidableEq, Repr

namespace DirectiveLocation

/-- The written name of a location. -/
def name : DirectiveLocation → String
  | query => "QUERY"
  | mutation => "MUTATION"
  | subscription => "SUBSCRIPTION"
  | field => "FIELD"
  | fragmentDefinition => "FRAGMENT_DEFINITION"
  | fragmentSpread => "FRAGMENT_SPREAD"
  | inlineFragment => "INLINE_FRAGMENT"
  | variableDefinition => "VARIABLE_DEFINITION"
  | schema => "SCHEMA"
  | scalar => "SCALAR"
  | object => "OBJECT"
  | fieldDefinition => "FIELD_DEFINITION"
  | argumentDefinition => "ARGUMENT_DEFINITION"
  | interface => "INTERFACE"
  | union => "UNION"
  | enum => "ENUM"
  | enumValue => "ENUM_VALUE"
  | inputObject => "INPUT_OBJECT"
  | inputFieldDefinition => "INPUT_FIELD_DEFINITION"

/-- Every location, those of operations first. -/
def all : List DirectiveLocation :=
  [query, mutation, subscription, field, fragmentDefinition, fragmentSpread, inlineFragment,
    variableDefinition, schema, scalar, object, fieldDefinition, argumentDefinition, interface,
    union, enum, enumValue, inputObject, inputFieldDefinition]

/-- The location with a written name. -/
def ofName? (word : String) : Option DirectiveLocation := all.find? (·.name == word)

/-- The location of directives on a type of some kind. -/
def ofKind : TypeKind → DirectiveLocation
  | .object => object
  | .interface => interface
  | .union => union
  | .enum => enum
  | .inputObject => inputObject
  | .scalar => scalar

theorem ofName?_eq_some_iff {word : String} {location : DirectiveLocation} :
    ofName? word = some location ↔ word = location.name := by
  constructor
  · intro h
    have := List.find?_some h
    simpa using (beq_iff_eq.mp this).symm
  · rintro rfl
    cases location <;> decide

end DirectiveLocation

/-- The built-in scalar types, in their conventional order. -/
def builtInScalars : List String := ["Int", "Float", "String", "Boolean", "ID"]

/-- The types that describe a schema to its clients. -/
def introspectionTypes : List String :=
  ["__Schema", "__Type", "__Field", "__InputValue", "__EnumValue", "__Directive", "__TypeKind",
    "__DirectiveLocation"]

/-- Whether a name is that of a built-in scalar type. -/
def isBuiltInScalar (name : String) : Bool := builtInScalars.contains name

/-- Whether a name is that of an introspection type. -/
def isIntrospectionType (name : String) : Bool := introspectionTypes.contains name

/-- Whether a name is reserved for introspection: it starts with two underscores. -/
def isReservedName (name : String) : Bool := ['_', '_'].isPrefixOf name.toList

end SdlGraph
