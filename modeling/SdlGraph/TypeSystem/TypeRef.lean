/-!
# References to types

A reference is the name of a type under any number of list and non-null wrappers. Lists are
written in brackets, and a reference that is never null ends in an exclamation mark.
-/

namespace SdlGraph

/-- A type name with its wrappers. -/
inductive TypeRef where
  /-- A type by its name. -/
  | named (name : String)
  /-- A list of an element type. -/
  | list (element : TypeRef)
  /-- A type without null. -/
  | nonNull (inner : TypeRef)
  deriving DecidableEq, Repr

namespace TypeRef

/-- The name under all wrappers. -/
def baseName : TypeRef → String
  | named name => name
  | list element => element.baseName
  | nonNull inner => inner.baseName

/-- Whether the outermost wrapper forbids null. -/
def isNonNull : TypeRef → Bool
  | nonNull _ => true
  | _ => false

/-- The written form of a reference. -/
def render : TypeRef → String
  | named name => name
  | list element => "[" ++ element.render ++ "]"
  | nonNull inner => inner.render ++ "!"

end TypeRef

end SdlGraph
