import SdlGraph.Catalog.BuiltIn
import SdlGraph.Document.Basic

/-!
# What a document declares

Of several definitions of one type the first counts, and a definition that clashes with a built-in
type does not count at all; the same holds of directives. Which definition counts is told by where
its name stands. The members of a type are those of the definition that counts and of all extensions
of the type, in written order.
-/

namespace SdlGraph

variable {σ : Type}

/-- Whether a type definition clashes with a built-in type. A built-in scalar type may be declared
as a scalar type. -/
def TypeDeclaration.clashes (declaration : TypeDeclaration σ) : Bool :=
  isIntrospectionType declaration.name.value ||
    (isBuiltInScalar declaration.name.value && declaration.kind != .scalar)

/-- The type declaration of a definition that is a type definition without a clash. -/
def Definition.soundType? : Definition σ → Option (TypeDeclaration σ)
  | type _ declaration => if declaration.clashes then none else some declaration
  | _ => none

/-- The directive declaration of a definition of a directive that is not built in. -/
def Definition.soundDirective? : Definition σ → Option (DirectiveDeclaration σ)
  | directive _ declaration =>
    if (BuiltIn.directive? declaration.name.value).isSome then none else some declaration
  | _ => none

/-- The definition of a type that counts. -/
def declaredType? (definitions : List (Definition σ)) (name : String) :
    Option (TypeDeclaration σ) :=
  (definitions.filterMap Definition.soundType?).find? (·.name.value == name)

/-- The definition of a directive that counts. -/
def declaredDirective? (definitions : List (Definition σ)) (name : String) :
    Option (DirectiveDeclaration σ) :=
  (definitions.filterMap Definition.soundDirective?).find? (·.name.value == name)

/-- Whether a name is that of a declared or built-in type. -/
def isKnownType (definitions : List (Definition σ)) (name : String) : Bool :=
  (declaredType? definitions name).isSome || isBuiltInScalar name || isIntrospectionType name

/-- The locations that a built-in or declared directive allows. -/
def allowedLocations? (definitions : List (Definition σ)) (name : String) :
    Option (List DirectiveLocation) :=
  match BuiltIn.directive? name with
  | some directive => some directive.locations
  | none => (declaredDirective? definitions name).map fun declaration =>
      declaration.locations.map (·.value)

/-- The names of the fields or values in the body of a type. -/
def TypeBody.memberNames (body : TypeBody σ) : List (Located σ String) :=
  body.fields.map (·.name) ++ body.inputFields.map (·.name) ++ body.values.map (·.name)

/-- Whether a type definition is the one that counts for its name: the name of the declared type
stands where its own does. -/
def isRegistered [DecidableEq σ] (definitions : List (Definition σ))
    (declaration : TypeDeclaration σ) : Bool :=
  (declaredType? definitions declaration.name.value).any (·.name.place = declaration.name.place)

/-- The declaration of which a definition gives the members to its type: that of an extension, or of
a type definition that counts. -/
def Definition.contribution? [DecidableEq σ] (all : List (Definition σ)) :
    Definition σ → Option (TypeDeclaration σ)
  | type _ declaration => if isRegistered all declaration then some declaration else none
  | extendType declaration => some declaration
  | _ => none

/-- The members that some of all definitions give to a type of some name. -/
def membersOf [DecidableEq σ] (all : List (Definition σ)) (name : String)
    (definitions : List (Definition σ)) : List (Located σ String) :=
  ((definitions.filterMap (Definition.contribution? all)).filter
    (·.name.value == name)).flatMap (·.body.memberNames)

/-- The root operations named by a definition. -/
def Definition.operations : Definition σ → List (RootOperation σ)
  | schema _ block => block.operations
  | extendSchema block => block.operations
  | _ => []

/-- Where a definition that is a schema definition stands. -/
def Definition.schemaPlace? : Definition σ → Option σ
  | schema _ block => some block.place
  | _ => none

end SdlGraph
