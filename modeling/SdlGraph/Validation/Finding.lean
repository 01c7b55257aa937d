import SdlGraph.Diagnostic.Basic
import SdlGraph.Document.Basic

/-!
# Findings

What can be wrong with a document that follows the grammar: repeated names, references to nothing,
directives out of place, root operations without an object type, extensions without a target. Each
finding has a diagnostic that points at the places involved.
-/

namespace SdlGraph

/-- A problem of a document. -/
inductive Finding (σ : Type) where
  /-- A type defined again. -/
  | duplicateType (name : Located σ String) (kind : TypeKind) (first : σ)
  /-- A definition of a built-in type. -/
  | builtInType (name : Located σ String)
  /-- A directive defined again. -/
  | duplicateDirective (name : Located σ String) (first : σ)
  /-- A definition of a built-in directive. -/
  | builtInDirective (name : Located σ String)
  /-- A second schema definition. -/
  | duplicateSchema (again first : σ)
  /-- A root operation named again. -/
  | duplicateRoot (operation : Located σ OperationKind) (first : σ)
  /-- A root operation served by a type that is not an object type. -/
  | rootNotObject (operation : OperationKind) (type : Located σ String) (kind : TypeKind)
    (defined : σ)
  /-- A root operation served by a built-in type. -/
  | rootBuiltIn (operation : OperationKind) (type : Located σ String)
  /-- A name that no type has. -/
  | unknownType (name : Located σ String)
  /-- An extension of a type that is not defined. -/
  | undefinedExtension (kind : TypeKind) (name : Located σ String)
  /-- An extension with the keyword of another kind of type. -/
  | extensionMismatch (kind : TypeKind) (name : Located σ String) (definedKind : TypeKind)
    (defined : σ)
  /-- A field of an object or interface type given again. -/
  | duplicateField (name : Located σ String) (first : σ)
  /-- A field of an input object type given again. -/
  | duplicateInputField (name : Located σ String) (first : σ)
  /-- A value of an enum type given again. -/
  | duplicateEnumValue (name : Located σ String) (first : σ)
  /-- An argument given again. -/
  | duplicateArgument (name : Located σ String) (first : σ)
  /-- An application of a directive that is not defined. -/
  | unknownDirective (name : String) (place : σ) (location : DirectiveLocation)
  /-- An application of a directive at a location it does not allow. -/
  | misplacedDirective (name : String) (place : σ) (location : DirectiveLocation)
    (allowed : List DirectiveLocation)
  deriving Repr

namespace Finding

variable {σ : Type}

/-- The code of a finding. -/
def code : Finding σ → Code
  | duplicateType _ _ _ => .duplicateType
  | builtInType _ => .duplicateType
  | duplicateDirective _ _ => .duplicateDirective
  | builtInDirective _ => .duplicateDirective
  | duplicateSchema _ _ => .multipleSchemas
  | duplicateRoot _ _ => .duplicateRootOperation
  | rootNotObject _ _ _ _ => .invalidRootOperation
  | rootBuiltIn _ _ => .invalidRootOperation
  | unknownType _ => .unknownType
  | undefinedExtension _ _ => .undefinedExtension
  | extensionMismatch _ _ _ _ => .extensionKindMismatch
  | duplicateField _ _ => .duplicateField
  | duplicateInputField _ _ => .duplicateField
  | duplicateEnumValue _ _ => .duplicateEnumValue
  | duplicateArgument _ _ => .duplicateArgument
  | unknownDirective _ _ _ => .unknownDirective
  | misplacedDirective _ _ _ _ => .unknownDirective

/-- What a repetition is called. -/
def repeated (noun name : String) : String :=
  noun ++ " `" ++ name ++ "` is defined multiple times"

/-- What is wrong, in one line. -/
def message : Finding σ → String
  | duplicateType name _ _ => repeated "type" name.value
  | builtInType name => "type `" ++ name.value ++ "` conflicts with a built-in type"
  | duplicateDirective name _ => repeated "directive" ("@" ++ name.value)
  | builtInDirective name => "directive `@" ++ name.value ++ "` is a built-in directive"
  | duplicateSchema _ _ => "schema is defined multiple times"
  | duplicateRoot operation _ => repeated "root operation" operation.value.keyword
  | rootNotObject operation type kind _ =>
    "root operation `" ++ operation.keyword ++ "` must be an object type, but `" ++ type.value ++
      "` is " ++ kind.label
  | rootBuiltIn operation type =>
    "root operation `" ++ operation.keyword ++ "` must be an object type, but `" ++ type.value ++
      "` is built in"
  | unknownType name => "unknown type `" ++ name.value ++ "`"
  | undefinedExtension _ name =>
    "cannot extend type `" ++ name.value ++ "` because it is not defined"
  | extensionMismatch kind name definedKind _ =>
    "cannot extend " ++ definedKind.keyword ++ " `" ++ name.value ++ "` with `extend " ++
      kind.keyword ++ "`"
  | duplicateField name _ => repeated "field" name.value
  | duplicateInputField name _ => repeated "input field" name.value
  | duplicateEnumValue name _ => repeated "enum value" name.value
  | duplicateArgument name _ => repeated "argument" name.value
  | unknownDirective name _ _ => "unknown directive `@" ++ name ++ "`"
  | misplacedDirective name _ location _ =>
    "directive `@" ++ name ++ "` may not be used on " ++ location.name

/-- The labels of something repeated: where it is repeated, and where it first stood. -/
def repetition (again first : σ) : List (Label σ) :=
  [.primary again "duplicate definition", .secondary first "first defined here"]

/-- The places a finding points at. -/
def labels : Finding σ → List (Label σ)
  | duplicateType name _ first => repetition name.place first
  | builtInType name => [.primary name.place "redefines a built-in type"]
  | duplicateDirective name first => repetition name.place first
  | builtInDirective name => [.primary name.place "redefines a built-in directive"]
  | duplicateSchema again first =>
    [.primary again "duplicate schema definition", .secondary first "first defined here"]
  | duplicateRoot operation first =>
    [.primary operation.place "duplicate root operation", .secondary first "first defined here"]
  | rootNotObject _ type _ defined =>
    [.primary type.place "not an object type", .secondary defined "defined here"]
  | rootBuiltIn _ type => [.primary type.place "not an object type"]
  | unknownType name => [.primary name.place "not defined"]
  | undefinedExtension _ name => [.primary name.place "undefined type"]
  | extensionMismatch _ name _ defined =>
    [.primary name.place "wrong extension kind", .secondary defined "defined here"]
  | duplicateField name first => repetition name.place first
  | duplicateInputField name first => repetition name.place first
  | duplicateEnumValue name first => repetition name.place first
  | duplicateArgument name first => repetition name.place first
  | unknownDirective _ place _ => [.primary place "not defined"]
  | misplacedDirective _ place _ _ => [.primary place "misplaced directive"]

/-- How to mend the document. -/
def help? : Finding σ → Option String
  | duplicateType name kind _ =>
    some ("remove the duplicate or use `extend " ++ kind.keyword ++ " " ++ name.value ++ "`")
  | builtInType _ => some "choose a different type name"
  | builtInDirective _ => some "choose a different directive name"
  | duplicateSchema _ _ => some "use `extend schema` to add root operations"
  | unknownType name => some ("define `" ++ name.value ++ "` or check the spelling")
  | undefinedExtension kind name =>
    some ("define `" ++ kind.keyword ++ " " ++ name.value ++ "` first")
  | extensionMismatch _ name definedKind _ =>
    some ("use `extend " ++ definedKind.keyword ++ " " ++ name.value ++ "`")
  | unknownDirective name _ location =>
    some ("define it with `directive @" ++ name ++ " on " ++ location.name ++ "`")
  | misplacedDirective name _ _ allowed =>
    some ("`@" ++ name ++ "` is allowed on " ++ ", ".intercalate (allowed.map (·.name)))
  | _ => none

/-- The diagnostic of a finding. -/
def diagnostic (finding : Finding σ) : Diagnostic σ :=
  ⟨some finding.code, finding.message, finding.labels, finding.help?⟩

end Finding

end SdlGraph
