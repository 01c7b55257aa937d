import SdlGraph.Proofs.Document.Outline

/-!
# Places in an outline

The outline of a document holds all of its places, and what a walk through the document meets has
its places chosen from the outline in written order.
-/

namespace SdlGraph

variable {σ : Type}

mutual

/-- The places in a part: its own, and those inside it. -/
def Outline.places : Outline σ → List σ
  | part place? _ within => place?.toList ++ placesOf within

/-- The places in a list of parts. -/
def Outline.placesOf : List (Outline σ) → List σ
  | [] => []
  | first :: rest => first.places ++ placesOf rest

end

namespace Outline

@[simp]
theorem placesOf_append (parts parts' : List (Outline σ)) :
    placesOf (parts ++ parts') = placesOf parts ++ placesOf parts' := by
  induction parts with
  | nil => rfl
  | cons part parts ih => simp only [List.cons_append, placesOf, ih, List.append_assoc]

@[simp]
theorem placesOf_map {α : Type} (outline : α → Outline σ) (items : List α) :
    placesOf (items.map outline) = items.flatMap fun item => (outline item).places := by
  induction items with
  | nil => rfl
  | cons item items ih => simp only [List.map_cons, placesOf, ih, List.flatMap_cons]

@[simp]
theorem places_leaf (place : σ) (spelling : Language Token) :
    (leaf place spelling).places = [place] := rfl

end Outline

/-- Parts in a run of tokens have their places in it. -/
theorem Outlined.inside_placesOf {start : Nat} {taken : List Token} {parts : List (Outline Extent)}
    (h : Outlined start taken parts) :
    ∀ place ∈ Outline.placesOf parts, place.Inside start (start + taken.length) := by
  induction h with
  | nil => exact List.forall_mem_nil _
  | @cons start first stop gap run later place? spelling within rest hfirst hstop hrun hspelling
      hplace hwithin hrest ihwithin ihrest =>
    have hpos : 0 < run.length := List.length_pos_iff.mpr hrun
    have hlength : (gap ++ (run ++ later)).length = gap.length + (run.length + later.length) := by
      rw [List.length_append, List.length_append]
    intro place hp
    simp only [Outline.placesOf, Outline.places, List.mem_append, Option.mem_toList] at hp
    rcases hp with (hp | hp) | hp
    · rw [hplace place hp]
      refine ⟨?_, ?_, ?_⟩ <;> dsimp only <;> omega
    · obtain ⟨hle, hlt, hlast⟩ := ihwithin place hp
      exact ⟨by omega, hlt, by omega⟩
    · obtain ⟨hle, hlt, hlast⟩ := ihrest place hp
      exact ⟨by omega, hlt, by omega⟩

@[simp]
theorem Located.places_nameOutline (name : Located σ String) :
    name.nameOutline.places = [name.place] := rfl

@[simp]
theorem Located.places_constantOutline (constant : Located σ Value) :
    constant.constantOutline.places = [constant.place] := rfl

@[simp]
theorem Located.places_locationOutline (location : Located σ DirectiveLocation) :
    location.locationOutline.places = [location.place] := rfl

@[simp]
theorem placesOf_describedOutline (description : Option (Located σ String)) :
    Outline.placesOf (describedOutline description) = descriptionPlaces description := by
  cases description <;> rfl

@[simp]
theorem TypeUse.places_outline (written : TypeUse σ) :
    written.outline.places = written.places := rfl

@[simp]
theorem Argument.places_outline (argument : Argument σ) :
    argument.outline.places = argument.places := rfl

@[simp]
theorem DirectiveUse.places_outline (use : DirectiveUse σ) : use.outline.places = use.places := by
  simp [outline, Outline.places, Outline.placesOf, places]

@[simp]
theorem InputValue.places_outline (input : InputValue σ) :
    input.outline.places = input.places := by
  cases h : input.default <;>
    simp [outline, Outline.places, Outline.placesOf, places, h]

@[simp]
theorem Field.places_outline (field : Field σ) : field.outline.places = field.places := by
  simp [outline, Outline.places, Outline.placesOf, places]

@[simp]
theorem EnumValue.places_outline (value : EnumValue σ) : value.outline.places = value.places := by
  simp [outline, Outline.places, Outline.placesOf, places]

@[simp]
theorem RootOperation.places_outline (root : RootOperation σ) :
    root.outline.places = root.places := rfl

@[simp]
theorem TypeBody.placesOf_outlines (directives : List (DirectiveUse σ)) (body : TypeBody σ) :
    Outline.placesOf (body.outlines directives) = body.places directives := by
  cases body <;>
    simp [outlines, contents, places, interfaces, fields, inputFields, members, values,
      ← List.map_eq_flatMap]

theorem TypeDeclaration.placesOf_parts (declaration : TypeDeclaration σ) :
    declaration.place :: Outline.placesOf declaration.parts = declaration.places := by
  simp [parts, places, Outline.placesOf]

theorem SchemaBlock.placesOf_parts (block : SchemaBlock σ) :
    block.place :: Outline.placesOf block.parts = block.places := by
  simp [parts, places]

theorem DirectiveDeclaration.placesOf_parts (declaration : DirectiveDeclaration σ) :
    declaration.place :: Outline.placesOf declaration.parts = declaration.places := by
  simp [parts, places, Outline.placesOf, ← List.map_eq_flatMap]

/-- The outline of a definition holds its places, its own in front of that of its description. -/
theorem Definition.mem_places_outline {definition : Definition σ} {place : σ} :
    place ∈ definition.outline.places ↔ place ∈ definition.places := by
  cases definition with
  | schema description block =>
    simp [outline, parts, places, Definition.place, Outline.places, ← SchemaBlock.placesOf_parts,
      or_left_comm]
  | extendSchema block =>
    simp [outline, parts, places, Definition.place, Outline.places, ← SchemaBlock.placesOf_parts]
  | type description declaration =>
    simp [outline, parts, places, Definition.place, Outline.places,
      ← TypeDeclaration.placesOf_parts, or_left_comm]
  | extendType declaration =>
    simp [outline, parts, places, Definition.place, Outline.places,
      ← TypeDeclaration.placesOf_parts]
  | directive description declaration =>
    simp [outline, parts, places, Definition.place, Outline.places,
      ← DirectiveDeclaration.placesOf_parts, or_left_comm]

/-- The outline of a document. -/
def Document.outline (document : Document σ) : List (Outline σ) :=
  document.definitions.map Definition.outline

/-- The outline of a document holds its places. -/
theorem Document.mem_placesOf_outline {document : Document σ} {place : σ} :
    place ∈ Outline.placesOf document.outline ↔ place ∈ document.places := by
  simp [outline, places, Definition.mem_places_outline]

open Outline (Chosen)

/-- Places chosen inside a part. -/
theorem Outline.Chosen.enter {place? : Option σ} {spelling : Language Token}
    {within : List (Outline σ)} {places : List σ} (h : Chosen within places) :
    Chosen [.part place? spelling within] places := by
  simpa using Chosen.inside h (.nil [])

/-- A single place. -/
theorem Outline.Chosen.one {place : σ} {spelling : Language Token} {within : List (Outline σ)} :
    Chosen [.part (some place) spelling within] [place] := .whole (.nil [])

/-- The part of a document that is met. -/
def Event.outline : Event σ → Outline σ
  | directive applied _ => applied.outline
  | typeUse type => type.outline
  | reference name => name.nameOutline

section Events

variable {pick : Event σ → List σ} (hpick : ∀ event, Chosen [event.outline] (pick event))

include hpick

theorem DirectiveUse.chosen_events (location : DirectiveLocation) (uses : List (DirectiveUse σ)) :
    Chosen (uses.map outline) ((events location uses).flatMap pick) := by
  rw [events, List.flatMap_map]
  exact .flatMap fun use _ => hpick (.directive use location)

theorem Located.chosen_references (names : List (Located σ String)) :
    Chosen (names.map nameOutline) ((names.map Event.reference).flatMap pick) := by
  rw [List.flatMap_map]
  exact .flatMap fun name _ => hpick (.reference name)

theorem InputValue.chosen_events (location : DirectiveLocation) (input : InputValue σ) :
    Chosen [input.outline] ((input.events location).flatMap pick) := by
  have huses := (Chosen.nil (input.default.toList.map Located.constantOutline)).append
    (DirectiveUse.chosen_events hpick location input.directives)
  exact .enter ((Chosen.nil _).append ((Chosen.nil _).append
    ((hpick (.typeUse input.type)).append huses)))

omit hpick in
/-- What is met in each item of a list is met one after the other. -/
theorem Outline.Chosen.events {α : Type} {outline : α → Outline σ} {events : α → List (Event σ)}
    (h : ∀ item, Chosen [outline item] ((events item).flatMap pick)) (items : List α) :
    Chosen (items.map outline) ((items.flatMap events).flatMap pick) := by
  rw [List.flatMap_assoc]
  exact .flatMap fun item _ => h item

theorem Field.chosen_events (field : Field σ) :
    Chosen [field.outline] (field.events.flatMap pick) := by
  have hparts := (Chosen.events (InputValue.chosen_events hpick .argumentDefinition)
    field.arguments).append ((hpick (.typeUse field.type)).append
      (DirectiveUse.chosen_events hpick .fieldDefinition field.directives))
  rw [events, List.flatMap_append, List.flatMap_cons]
  exact .enter ((Chosen.nil _).append ((Chosen.nil _).append hparts))

theorem EnumValue.chosen_events (value : EnumValue σ) :
    Chosen [value.outline] (value.events.flatMap pick) :=
  .enter ((Chosen.nil _).append ((Chosen.nil _).append
    (DirectiveUse.chosen_events hpick .enumValue value.directives)))

/-- The types and directives met in a type come in written order. -/
theorem TypeDeclaration.chosen_events (declaration : TypeDeclaration σ) :
    Chosen declaration.parts (declaration.events.flatMap pick) := by
  obtain ⟨name, uses, body, place⟩ := declaration
  have hbody : Chosen body.contents ((body.fields.flatMap Field.events ++
      body.inputFields.flatMap (InputValue.events .inputFieldDefinition) ++
      body.members.map Event.reference ++ body.values.flatMap EnumValue.events).flatMap pick) := by
    cases body <;> simp only [TypeBody.contents, TypeBody.fields, TypeBody.inputFields,
      TypeBody.members, TypeBody.values, List.flatMap_nil, List.map_nil, List.append_nil,
      List.nil_append]
    case object names fields => exact Chosen.events (Field.chosen_events hpick) fields
    case interface names fields => exact Chosen.events (Field.chosen_events hpick) fields
    case union members => exact Located.chosen_references hpick members
    case enum values => exact Chosen.events (EnumValue.chosen_events hpick) values
    case inputObject fields => exact Chosen.events (InputValue.chosen_events hpick _) fields
    case scalar => exact .nil []
  have hparts := (Located.chosen_references hpick body.interfaces).append
    ((DirectiveUse.chosen_events hpick (.ofKind body.kind) uses).append hbody)
  have hall := (Chosen.nil [name.nameOutline]).append hparts
  simpa only [parts, TypeBody.outlines, events, kind, List.nil_append, List.flatMap_append,
    List.append_assoc] using hall

theorem SchemaBlock.chosen_events (block : SchemaBlock σ) :
    Chosen block.parts (block.events.flatMap pick) := by
  have hoperation (root : RootOperation σ) :
      Chosen [root.outline] (pick (.reference root.type)) :=
    .enter ((Chosen.nil [_]).append (hpick (.reference root.type)))
  rw [events, List.flatMap_append, List.flatMap_map]
  exact (DirectiveUse.chosen_events hpick .schema block.directives).append
    (.flatMap fun root _ => hoperation root)

theorem DirectiveDeclaration.chosen_events (declaration : DirectiveDeclaration σ) :
    Chosen declaration.parts (declaration.events.flatMap pick) := by
  have harguments := Chosen.events (InputValue.chosen_events hpick .argumentDefinition)
    declaration.arguments
  have hall := (Chosen.nil [declaration.name.nameOutline]).append
    (harguments.append (.nil (declaration.locations.map Located.locationOutline)))
  simpa [parts, events] using hall

theorem Definition.chosen_events (definition : Definition σ) :
    Chosen [definition.outline] (definition.events.flatMap pick) := by
  refine .enter ?_
  cases definition with
  | schema description block => exact (Chosen.nil _).append (block.chosen_events hpick)
  | extendSchema block => exact block.chosen_events hpick
  | type description declaration =>
    exact (Chosen.nil _).append (declaration.chosen_events hpick)
  | extendType declaration => exact declaration.chosen_events hpick
  | directive description declaration =>
    exact (Chosen.nil _).append (declaration.chosen_events hpick)

/-- Places chosen in each thing that a walk through a document meets come in written order. -/
theorem Document.chosen_flatMap_events (document : Document σ) :
    Chosen document.outline (document.events.flatMap pick) :=
  Chosen.events (Definition.chosen_events hpick) document.definitions

end Events

/-- What a walk through a document meets has its places in written order, none inside another. -/
theorem Document.chosen_events (document : Document σ) :
    Chosen document.outline (document.events.map Event.place) := by
  rw [List.map_eq_flatMap]
  refine document.chosen_flatMap_events fun event => ?_
  cases event <;> exact .one

/-- Places chosen from the parts of each definition come in written order. -/
theorem Document.chosen_flatMap (document : Document σ) {pick : Definition σ → List σ}
    (hpick : ∀ definition, Chosen definition.parts (pick definition)) :
    Chosen document.outline (document.definitions.flatMap pick) :=
  .flatMap fun definition _ => .enter (hpick definition)

/-- The definitions of a document come in written order. -/
theorem Document.chosen_definitions (document : Document σ) :
    Chosen document.outline (document.definitions.map Definition.place) :=
  .map (fun _ => .one) document.definitions

/-- The name of what a definition or extension is about. A schema has none. -/
def Definition.name? : Definition σ → Option (Located σ String)
  | schema _ _ => none
  | extendSchema _ => none
  | type _ declaration => some declaration.name
  | extendType declaration => some declaration.name
  | directive _ declaration => some declaration.name

/-- The names of definitions come in written order. -/
theorem Document.chosen_names (document : Document σ) : Chosen document.outline
    ((document.definitions.filterMap Definition.name?).map (·.place)) := by
  rw [List.filterMap_eq_flatMap_toList, List.map_flatMap]
  refine document.chosen_flatMap fun definition => ?_
  have htail (name : Located σ String) (parts : List (Outline σ)) :
      Chosen ([name.nameOutline] ++ parts) [name.place] := Chosen.one.append (.nil parts)
  cases definition with
  | schema description block => exact .nil _
  | extendSchema block => exact .nil _
  | type description declaration => exact (Chosen.nil _).append (htail _ _)
  | extendType declaration => exact htail _ _
  | directive description declaration => exact (Chosen.nil _).append (htail _ _)

end SdlGraph
