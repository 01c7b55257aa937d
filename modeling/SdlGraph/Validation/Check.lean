import SdlGraph.Validation.Declared
import SdlGraph.Validation.Finding

/-!
# Checking a document

A document is checked in two passes. The first looks at the definitions of types and directives and
finds those that do not count. The second goes through every part of the document and finds repeated
members, unknown names, directives out of place, and root operations and extensions without a
suitable type. What has been seen before is passed along as the list of earlier items, so the
finding for a repetition points at the first occurrence.
-/

namespace SdlGraph

/-- Apply a function to each item and the items before it, and join the results. -/
def withEarlier {α β : Type} (f : List α → α → List β) (earlier : List α) : List α → List β
  | [] => []
  | item :: rest => f earlier item ++ withEarlier f (earlier ++ [item]) rest

variable {σ : Type}

/-- Where the first of several located values equal to a given one stands. -/
def firstPlace? {α : Type} [BEq α] (items : List (Located σ α)) (value : α) : Option σ :=
  (items.find? (·.value == value)).map (·.place)

/-- Report each item whose value came up before it. -/
def repetitions {α : Type} [BEq α] (report : Located σ α → σ → Finding σ)
    (earlier items : List (Located σ α)) : List (Finding σ) :=
  withEarlier (fun before item => ((firstPlace? before item.value).map (report item)).toList)
    earlier items

namespace Check

/-- A name that no type has. -/
def typeName (all : List (Definition σ)) (name : Located σ String) : List (Finding σ) :=
  if isKnownType all name.value then [] else [.unknownType name]

/-- The type of a field, argument or input field. -/
def typeUse (all : List (Definition σ)) (written : TypeUse σ) : List (Finding σ) :=
  typeName all ⟨written.type.baseName, written.namePlace⟩

/-- A directive applied at a location: whether it is defined and allowed there, and its
arguments. -/
def directiveUse (all : List (Definition σ)) (location : DirectiveLocation)
    (applied : DirectiveUse σ) : List (Finding σ) :=
  (match allowedLocations? all applied.name.value with
    | none => [.unknownDirective applied.name.value applied.place location]
    | some allowed =>
      if location ∈ allowed then []
      else [.misplacedDirective applied.name.value applied.place location allowed]) ++
    repetitions .duplicateArgument [] (applied.arguments.map (·.name))

/-- An input value at a location. -/
def inputValue (all : List (Definition σ)) (location : DirectiveLocation)
    (input : InputValue σ) : List (Finding σ) :=
  typeUse all input.type ++ input.directives.flatMap (directiveUse all location)

/-- The argument definitions of a field or directive. -/
def arguments (all : List (Definition σ)) (arguments : List (InputValue σ)) :
    List (Finding σ) :=
  repetitions .duplicateArgument [] (arguments.map (·.name)) ++
    arguments.flatMap (inputValue all .argumentDefinition)

/-- A field of an object or interface type. -/
def field (all : List (Definition σ)) (field : Field σ) : List (Finding σ) :=
  arguments all field.arguments ++ typeUse all field.type ++
    field.directives.flatMap (directiveUse all .fieldDefinition)

/-- How a repeated member of a type is reported. -/
def duplicateMember : TypeKind → Located σ String → σ → Finding σ
  | .inputObject => .duplicateInputField
  | .enum => .duplicateEnumValue
  | _ => .duplicateField

/-- Members that repeat members given to the type by earlier definitions and extensions. -/
def members [DecidableEq σ] (all earlier : List (Definition σ))
    (declaration : TypeDeclaration σ) : List (Finding σ) :=
  repetitions (duplicateMember declaration.kind)
    (membersOf all declaration.name.value earlier) declaration.body.memberNames

/-- The parts of a type definition or extension. -/
def typeParts (all : List (Definition σ)) (declaration : TypeDeclaration σ) : List (Finding σ) :=
  declaration.body.interfaces.flatMap (typeName all) ++
    declaration.directives.flatMap (directiveUse all (.ofKind declaration.kind)) ++
    declaration.body.fields.flatMap (field all) ++
    declaration.body.inputFields.flatMap (inputValue all .inputFieldDefinition) ++
    declaration.body.members.flatMap (typeName all) ++
    declaration.body.values.flatMap fun value =>
      value.directives.flatMap (directiveUse all .enumValue)

/-- Whether the type of an extension is defined, and of the same kind. -/
def extensionTarget (all : List (Definition σ)) (declaration : TypeDeclaration σ) :
    List (Finding σ) :=
  match declaredType? all declaration.name.value with
  | none => [.undefinedExtension declaration.kind declaration.name]
  | some defined =>
    if defined.kind = declaration.kind then []
    else
      [.extensionMismatch declaration.kind declaration.name defined.kind defined.name.place]

/-- The type that serves a root operation. -/
def rootType (all : List (Definition σ)) (root : RootOperation σ) : List (Finding σ) :=
  match declaredType? all root.type.value with
  | some defined =>
    if defined.kind = .object then []
    else [.rootNotObject root.operation.value root.type defined.kind defined.name.place]
  | none =>
    if isKnownType all root.type.value then [.rootBuiltIn root.operation.value root.type]
    else [.unknownType root.type]

/-- A root operation, given those named before it. -/
def rootOperation (all : List (Definition σ)) (earlier : List (RootOperation σ))
    (root : RootOperation σ) : List (Finding σ) :=
  repetitions .duplicateRoot (earlier.map (·.operation)) [root.operation] ++ rootType all root

/-- A schema block, given the definitions before it. -/
def schemaBlock (all earlier : List (Definition σ)) (block : SchemaBlock σ) : List (Finding σ) :=
  block.directives.flatMap (directiveUse all .schema) ++
    withEarlier (rootOperation all) (earlier.flatMap Definition.operations) block.operations

/-- A definition in the first pass: whether it counts, given the definitions before it. -/
def registration (earlier : List (Definition σ)) : Definition σ → List (Finding σ)
  | .type _ declaration =>
    match declaredType? earlier declaration.name.value with
    | some first => [.duplicateType declaration.name declaration.kind first.name.place]
    | none => if declaration.clashes then [.builtInType declaration.name] else []
  | .directive _ declaration =>
    match declaredDirective? earlier declaration.name.value with
    | some first => [.duplicateDirective declaration.name first.name.place]
    | none =>
      if (BuiltIn.directive? declaration.name.value).isSome then
        [.builtInDirective declaration.name]
      else []
  | _ => []

/-- A definition in the second pass, given all definitions and those before it. The members of a
type definition that does not count are left out. -/
def definition [DecidableEq σ] (all earlier : List (Definition σ)) :
    Definition σ → List (Finding σ)
  | .schema _ block =>
    ((earlier.filterMap Definition.schemaPlace?).head?.map
      (Finding.duplicateSchema block.place)).toList ++ schemaBlock all earlier block
  | .extendSchema block => schemaBlock all earlier block
  | .type _ declaration =>
    (if isRegistered all declaration then members all earlier declaration else []) ++
      typeParts all declaration
  | .extendType declaration =>
    extensionTarget all declaration ++ members all earlier declaration ++
      typeParts all declaration
  | .directive _ declaration => arguments all declaration.arguments

end Check

/-- Everything that is wrong with a document, in the order in which it is found. -/
def Document.findings [DecidableEq σ] (document : Document σ) : List (Finding σ) :=
  withEarlier Check.registration [] document.definitions ++
    withEarlier (Check.definition document.definitions) [] document.definitions

end SdlGraph
