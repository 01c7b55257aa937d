import SdlGraph.Document.Walk

/-!
# Where the parts of a document stand

The places that a document keeps, construct by construct, and where the things stand that a walk
through it meets. Places are compared as ranges of tokens: they lie between two points, and one may
end before the next one starts.
-/

namespace SdlGraph

variable {σ : Type}

/-- A range of tokens between two points, with a token at least. -/
def Extent.Inside (start stop : Nat) (extent : Extent) : Prop :=
  start ≤ extent.first ∧ extent.first < extent.stop ∧ extent.stop ≤ stop

/-- Where the thing met on a walk stands: a whole directive application, a type with its wrappers,
or a name. -/
def Event.place : Event σ → σ
  | directive applied _ => applied.place
  | typeUse type => type.place
  | reference name => name.place

/-- The place of a description, if there is one. -/
def descriptionPlaces (description : Option (Located σ String)) : List σ :=
  description.toList.map (·.place)

/-- The places of a type use: its own and that of the name in it. -/
def TypeUse.places (written : TypeUse σ) : List σ := [written.place, written.namePlace]

/-- The places of an argument given to a directive. -/
def Argument.places (argument : Argument σ) : List σ := [argument.name.place, argument.value.place]

/-- The places of a directive application. -/
def DirectiveUse.places (use : DirectiveUse σ) : List σ :=
  use.place :: use.name.place :: use.arguments.flatMap Argument.places

/-- The places of an input value. -/
def InputValue.places (input : InputValue σ) : List σ :=
  descriptionPlaces input.description ++ input.name.place :: (input.type.places ++
    (input.default.toList.map (·.place) ++ input.directives.flatMap DirectiveUse.places))

/-- The places of a field. -/
def Field.places (field : Field σ) : List σ :=
  descriptionPlaces field.description ++ field.name.place ::
    (field.arguments.flatMap InputValue.places ++
      (field.type.places ++ field.directives.flatMap DirectiveUse.places))

/-- The places of an enum value. -/
def EnumValue.places (value : EnumValue σ) : List σ :=
  descriptionPlaces value.description ++
    value.name.place :: value.directives.flatMap DirectiveUse.places

/-- The places behind the name of a type: those of its directives and of its parts. -/
def TypeBody.places (directives : List (DirectiveUse σ)) (body : TypeBody σ) : List σ :=
  body.interfaces.map (·.place) ++ (directives.flatMap DirectiveUse.places ++
    (body.fields.flatMap Field.places ++ (body.inputFields.flatMap InputValue.places ++
      (body.members.map (·.place) ++ body.values.flatMap EnumValue.places))))

/-- The places of a type declaration. -/
def TypeDeclaration.places (declaration : TypeDeclaration σ) : List σ :=
  declaration.place :: declaration.name.place :: declaration.body.places declaration.directives

/-- The places of a root operation. -/
def RootOperation.places (root : RootOperation σ) : List σ :=
  [root.operation.place, root.type.place]

/-- The places of a schema block. -/
def SchemaBlock.places (block : SchemaBlock σ) : List σ :=
  block.place :: (block.directives.flatMap DirectiveUse.places ++
    block.operations.flatMap RootOperation.places)

/-- The places of a directive declaration. -/
def DirectiveDeclaration.places (declaration : DirectiveDeclaration σ) : List σ :=
  declaration.place :: declaration.name.place ::
    (declaration.arguments.flatMap InputValue.places ++ declaration.locations.map (·.place))

/-- The places of a definition or extension. -/
def Definition.places : Definition σ → List σ
  | schema description block => descriptionPlaces description ++ block.places
  | extendSchema block => block.places
  | type description declaration => descriptionPlaces description ++ declaration.places
  | extendType declaration => declaration.places
  | directive description declaration => descriptionPlaces description ++ declaration.places

/-- All places of a document. -/
def Document.places (document : Document σ) : List σ :=
  document.definitions.flatMap Definition.places

/-- Places one behind the other, all of them between two points, with a token at least in each. -/
def Apart (start stop : Nat) (places : List Extent) : Prop :=
  (∀ place ∈ places, place.Inside start stop) ∧
    places.Pairwise fun earlier later => earlier.stop ≤ later.first

end SdlGraph
