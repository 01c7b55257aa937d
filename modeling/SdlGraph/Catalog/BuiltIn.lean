import SdlGraph.Catalog.Basic

/-!
# What is built in

Every schema has five scalar types, the types that describe it to its clients and five directives
without declaring them. A document may declare a built-in scalar type of its own; then its own
declaration stands.
-/

namespace SdlGraph.BuiltIn

/-- A built-in scalar type. -/
def scalar (name description : String) : TypeEntry :=
  ⟨name, .scalar, [], [], [], [], some description, true⟩

/-- The built-in scalar types. -/
def scalarTypes : List TypeEntry :=
  [scalar "Int"
      "The `Int` scalar type represents non-fractional signed whole numeric values.",
    scalar "Float"
      "The `Float` scalar type represents signed double-precision fractional values.",
    scalar "String"
      "The `String` scalar type represents textual data as UTF-8 character sequences.",
    scalar "Boolean" "The `Boolean` scalar type represents `true` or `false`.",
    scalar "ID" "The `ID` scalar type represents a unique identifier."]

/-- A type that may be null. -/
def optional (name : String) : TypeRef := .named name

/-- A type without null. -/
def required (name : String) : TypeRef := .nonNull (.named name)

/-- A list, itself perhaps null, of a type without null. -/
def listOf (name : String) : TypeRef := .list (required name)

/-- A list, never null, of a type without null. -/
def requiredListOf (name : String) : TypeRef := .nonNull (listOf name)

/-- A field without arguments. -/
def plainField (name : String) (type : TypeRef) : FieldEntry := ⟨name, type, [], none⟩

/-- A field that can also list what is deprecated. -/
def listingField (name : String) (type : TypeRef) : FieldEntry :=
  ⟨name, type, [⟨"includeDeprecated", optional "Boolean", some "false", none⟩], none⟩

/-- The fields that tell of a deprecation. -/
def deprecationFields : List FieldEntry :=
  [plainField "isDeprecated" (required "Boolean"),
    plainField "deprecationReason" (optional "String")]

/-- An introspection type with fields. -/
def objectType (name : String) (fields : List FieldEntry) : TypeEntry :=
  ⟨name, .object, fields, [], [], [], none, true⟩

/-- An introspection type with values. -/
def enumType (name : String) (values : List String) : TypeEntry :=
  ⟨name, .enum, [], [], [], values, none, true⟩

/-- The introspection types. -/
def introspection : List TypeEntry :=
  [objectType "__Schema"
      [plainField "description" (optional "String"),
        plainField "types" (requiredListOf "__Type"),
        plainField "queryType" (required "__Type"),
        plainField "mutationType" (optional "__Type"),
        plainField "subscriptionType" (optional "__Type"),
        plainField "directives" (requiredListOf "__Directive")],
    objectType "__Type"
      [plainField "kind" (required "__TypeKind"),
        plainField "name" (optional "String"),
        plainField "description" (optional "String"),
        plainField "specifiedByURL" (optional "String"),
        listingField "fields" (listOf "__Field"),
        plainField "interfaces" (listOf "__Type"),
        plainField "possibleTypes" (listOf "__Type"),
        listingField "enumValues" (listOf "__EnumValue"),
        listingField "inputFields" (listOf "__InputValue"),
        plainField "ofType" (optional "__Type"),
        plainField "isOneOf" (optional "Boolean")],
    objectType "__Field"
      ([plainField "name" (required "String"),
        plainField "description" (optional "String"),
        listingField "args" (requiredListOf "__InputValue"),
        plainField "type" (required "__Type")] ++ deprecationFields),
    objectType "__InputValue"
      ([plainField "name" (required "String"),
        plainField "description" (optional "String"),
        plainField "type" (required "__Type"),
        plainField "defaultValue" (optional "String")] ++ deprecationFields),
    objectType "__EnumValue"
      ([plainField "name" (required "String"),
        plainField "description" (optional "String")] ++ deprecationFields),
    objectType "__Directive"
      [plainField "name" (required "String"),
        plainField "description" (optional "String"),
        plainField "isRepeatable" (required "Boolean"),
        plainField "locations" (requiredListOf "__DirectiveLocation"),
        listingField "args" (requiredListOf "__InputValue")],
    enumType "__TypeKind"
      ["SCALAR", "OBJECT", "INTERFACE", "UNION", "ENUM", "INPUT_OBJECT", "LIST", "NON_NULL"],
    enumType "__DirectiveLocation" (DirectiveLocation.all.map (·.name))]

/-- The built-in types, scalars first. -/
def types : List TypeEntry := scalarTypes ++ introspection

/-- A built-in directive. -/
def directive (name : String) (locations : List DirectiveLocation)
    (arguments : List ArgumentEntry) : DirectiveEntry :=
  ⟨name, locations, arguments, false, true⟩

/-- The built-in directives. -/
def directives : List DirectiveEntry :=
  [directive "include" [.field, .fragmentSpread, .inlineFragment]
      [⟨"if", required "Boolean", none, none⟩],
    directive "skip" [.field, .fragmentSpread, .inlineFragment]
      [⟨"if", required "Boolean", none, none⟩],
    directive "deprecated"
      [.fieldDefinition, .argumentDefinition, .inputFieldDefinition, .enumValue]
      [⟨"reason", optional "String", some "\"No longer supported\"", none⟩],
    directive "specifiedBy" [.scalar] [⟨"url", required "String", none, none⟩],
    directive "oneOf" [.inputObject] []]

/-- The built-in directive of a name. -/
def directive? (name : String) : Option DirectiveEntry := directives.find? (·.name == name)

end SdlGraph.BuiltIn
