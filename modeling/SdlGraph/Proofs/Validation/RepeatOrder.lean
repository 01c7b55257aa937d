import Mathlib.Data.List.Flatten
import SdlGraph.Proofs.Validation.Repeats

/-!
# Repeats follow what they repeat

The items of each scope have their places among the parts of the document in written order, none
inside another. So whatever holds of such places, the earlier one and the later one, holds of the
first occurrence and of each repeat of it.
-/

namespace SdlGraph

variable {σ α κ β : Type}

/-- What is told of a list whose items stand in a relation is told of items that do. -/
theorem exists_of_mem_againstFirst {relation : α → α → Prop} {tell : α → α → β} {items : List α}
    (h : items.Pairwise relation) {told : β} (htold : told ∈ againstFirst tell items) :
    ∃ first again, relation first again ∧ tell again first = told := by
  cases items with
  | nil => cases htold
  | cons first rest =>
    obtain ⟨again, hagain, rfl⟩ := List.mem_map.mp htold
    exact ⟨first, again, (List.pairwise_cons.mp h).1 again hagain, rfl⟩

/-- The repeated place and the first one, if there is one, stand in a relation. -/
def Repeat.Follows (relation : σ → σ → Prop) (repeated : Repeat σ) : Prop :=
  ∀ first ∈ repeated.first?, relation first repeated.again

section Scopes

variable [DecidableEq κ] {relation : σ → σ → Prop} {items : List α}

/-- Repeats in a scope whose places stand in a relation. -/
theorem follows_repeatsIn {key : α → κ} {code : α → Code} {place : α → σ}
    (h : (items.map place).Pairwise relation) :
    ∀ repeated ∈ repeatsIn key code place items, repeated.Follows relation := by
  intro repeated hr
  obtain ⟨group, hgroup, htold⟩ := List.mem_flatMap.mp hr
  have hpairwise := (List.pairwise_map.mp h).sublist (sublist_of_mem_groups hgroup)
  obtain ⟨first, again, hrelated, rfl⟩ := exists_of_mem_againstFirst hpairwise htold
  intro other hother
  cases hother
  exact hrelated

/-- Repeats among definitions whose names have places that stand in a relation. -/
theorem follows_repeatsOfDefined {name : α → Located σ String} {taken : α → Bool} {code : Code}
    (h : (items.map fun item => (name item).place).Pairwise relation) :
    ∀ repeated ∈ repeatsOfDefined name taken code items, repeated.Follows relation := by
  intro repeated hr
  obtain ⟨group, hgroup, htold⟩ := List.mem_flatMap.mp hr
  have hpairwise := (List.pairwise_map.mp h).sublist
    ((List.dropWhile_sublist taken).trans (sublist_of_mem_groups hgroup))
  rcases List.mem_append.mp htold with htold | htold
  · obtain ⟨again, -, rfl⟩ := List.mem_map.mp htold
    intro first hfirst
    cases hfirst
  · obtain ⟨first, again, hrelated, rfl⟩ := exists_of_mem_againstFirst hpairwise htold
    intro other hother
    cases hother
    exact hrelated

end Scopes

open Outline (Chosen)

/-- The name of an input value is chosen from its parts. -/
theorem InputValue.chosen_name (input : InputValue σ) :
    Chosen [input.outline] [input.name.place] :=
  .enter ((Chosen.nil _).append (Chosen.one.append (.nil _)))

theorem Field.chosen_name (field : Field σ) : Chosen [field.outline] [field.name.place] :=
  .enter ((Chosen.nil _).append (Chosen.one.append (.nil _)))

theorem EnumValue.chosen_name (value : EnumValue σ) : Chosen [value.outline] [value.name.place] :=
  .enter ((Chosen.nil _).append (Chosen.one.append (.nil _)))

/-- The names of input values come in written order. -/
theorem InputValue.chosen_names (inputs : List (InputValue σ)) :
    Chosen (inputs.map outline) ((inputs.map (·.name)).map (·.place)) := by
  rw [List.map_map]
  exact .map chosen_name inputs

/-- The names of the arguments of a field come in written order. -/
theorem Field.chosen_arguments (field : Field σ) :
    Chosen [field.outline] ((field.arguments.map (·.name)).map (·.place)) := by
  have harguments := (InputValue.chosen_names field.arguments).append
    (.nil ([field.type.outline] ++ field.directives.map DirectiveUse.outline))
  rw [List.append_nil] at harguments
  exact .enter ((Chosen.nil _).append ((Chosen.nil _).append harguments))

/-- The names of the arguments given to a directive come in written order. -/
theorem DirectiveUse.chosen_arguments (use : DirectiveUse σ) :
    Chosen [use.outline] ((use.arguments.map (·.name)).map (·.place)) := by
  have harguments : Chosen (use.arguments.map Argument.outline)
      ((use.arguments.map (·.name)).map (·.place)) := by
    rw [List.map_map]
    exact .map (fun argument => .enter (Chosen.one.append (.nil _))) use.arguments
  exact .enter harguments.leave

/-- Places chosen behind the directives of a type. -/
theorem TypeDeclaration.chosen_contents {declaration : TypeDeclaration σ} {places : List σ}
    (h : Chosen declaration.body.contents places) : Chosen declaration.parts places :=
  (Chosen.nil [_]).append ((Chosen.nil _).append ((Chosen.nil _).append h))

/-- The names of the members of a type come in written order. -/
theorem TypeDeclaration.chosen_members (declaration : TypeDeclaration σ) :
    Chosen declaration.parts (declaration.ownedMembers.map (·.name.place)) := by
  have hplaces : declaration.ownedMembers.map (·.name.place) =
      declaration.body.memberNames.map (·.place) := by
    rw [ownedMembers, List.map_map]
    rfl
  rw [hplaces]
  refine chosen_contents ?_
  cases declaration.body <;> simp only [TypeBody.memberNames, TypeBody.fields,
    TypeBody.inputFields, TypeBody.values, TypeBody.contents, List.map_nil, List.append_nil,
    List.nil_append, List.map_map]
  case object names fields => exact .map Field.chosen_name fields
  case interface names fields => exact .map Field.chosen_name fields
  case union members => exact .nil _
  case enum values => exact .map EnumValue.chosen_name values
  case inputObject fields => exact .map InputValue.chosen_name fields
  case scalar => exact .nil []

/-- The operations of a schema block come in written order. -/
theorem SchemaBlock.chosen_operations (block : SchemaBlock σ) :
    Chosen block.parts (block.operations.map (·.operation.place)) :=
  (Chosen.nil _).append (.map (fun _ => .enter (Chosen.one.append (.nil _))) block.operations)

/-- The members in a definition or extension, whether or not they are given to the type. -/
def Definition.ownedMembers : Definition σ → List (Member σ)
  | type _ declaration => declaration.ownedMembers
  | extendType declaration => declaration.ownedMembers
  | _ => []

/-- Members that are given to a type are members of the definition. -/
theorem givenMembers_sublist (before : List (Definition σ)) (definition : Definition σ) :
    (givenMembers before definition).Sublist definition.ownedMembers := by
  cases definition with
  | type description declaration =>
    rw [givenMembers]
    split
    next => exact List.nil_sublist _
    next => exact .refl _
  | _ => exact .refl _

/-- What is told of items with earlier ones in hand is part of what can be told of them. -/
theorem withEarlier_sublist {f : List α → α → List β} {g : α → List β}
    (h : ∀ before item, (f before item).Sublist (g item)) (earlier items : List α) :
    (withEarlier f earlier items).Sublist (items.flatMap g) := by
  induction items generalizing earlier with
  | nil => exact .slnil
  | cons item items ih => exact (h earlier item).append (ih _)

/-- What is picked from items is part of what is picked from them if more are picked from. -/
theorem filterMap_sublist_filterMap {f g : α → Option β}
    (h : ∀ item, ∀ value ∈ f item, g item = some value) {items : List α} :
    (items.filterMap f).Sublist (items.filterMap g) := by
  induction items with
  | nil => exact .slnil
  | cons item items ih =>
    rw [List.filterMap_cons, List.filterMap_cons]
    cases hf : f item with
    | some value =>
      rw [h item value hf]
      exact ih.cons_cons value
    | none =>
      cases g item with
      | some value => exact ih.cons value
      | none => exact ih

namespace Document

variable (document : Document σ)

theorem chosen_members :
    Chosen document.outline
      ((document.definitions.flatMap Definition.ownedMembers).map (·.name.place)) := by
  rw [List.map_flatMap]
  refine document.chosen_flatMap fun definition => ?_
  cases definition with
  | type description declaration => exact (Chosen.nil _).append declaration.chosen_members
  | extendType declaration => exact declaration.chosen_members
  | _ => exact .nil _

theorem chosen_operations :
    Chosen document.outline (document.operations.map (·.operation.place)) := by
  rw [operations, List.map_flatMap]
  refine document.chosen_flatMap fun definition => ?_
  cases definition with
  | schema description block => exact (Chosen.nil _).append block.chosen_operations
  | extendSchema block => exact block.chosen_operations
  | _ => exact .nil _

theorem chosen_schemas :
    Chosen document.outline (document.definitions.filterMap Definition.schemaPlace?) := by
  rw [List.filterMap_eq_flatMap_toList]
  refine .flatMap fun definition _ => ?_
  cases definition with
  | schema description block => exact .one
  | _ => exact .nil _

/-- The names of the arguments of fields and directive definitions come in written order. -/
theorem chosen_argumentLists : Chosen document.outline
    (document.definitions.flatMap fun definition =>
      definition.argumentLists.flatten.map (·.place)) := by
  refine document.chosen_flatMap fun definition => ?_
  have hfields (declaration : TypeDeclaration σ) : Chosen declaration.parts
      ((declaration.body.fields.map fun field =>
        field.arguments.map (·.name)).flatten.map (·.place)) := by
    refine TypeDeclaration.chosen_contents ?_
    rw [← List.flatMap_def, List.map_flatMap]
    cases declaration.body with
    | object names fields => exact .flatMap fun field _ => field.chosen_arguments
    | interface names fields => exact .flatMap fun field _ => field.chosen_arguments
    | _ => exact .nil _
  cases definition with
  | type description declaration => exact (Chosen.nil _).append (hfields declaration)
  | extendType declaration => exact hfields declaration
  | directive description declaration =>
    have harguments := (InputValue.chosen_names declaration.arguments).append
      (.nil (declaration.locations.map Located.locationOutline))
    rw [List.append_nil] at harguments
    rw [Definition.argumentLists, List.flatten_singleton]
    exact (Chosen.nil _).append ((Chosen.nil [_]).append harguments)
  | _ => exact .nil _

/-- The names of the arguments given to directives come in written order. -/
theorem chosen_argumentNames : Chosen document.outline
    (document.events.flatMap fun event => event.argumentNames.map (·.place)) := by
  refine document.chosen_flatMap_events fun event => ?_
  cases event with
  | directive applied location => exact applied.chosen_arguments
  | _ => exact .nil _

variable {document} {relation : σ → σ → Prop}
  (h : ∀ places, Chosen document.outline places → places.Pairwise relation)

include h

theorem pairwise_names {α : Type} (name : α → Located σ String) {pick : Definition σ → Option α}
    (hpick : ∀ definition, ∀ item ∈ pick definition, definition.name? = some (name item)) :
    ((document.definitions.filterMap pick).map fun item => (name item).place).Pairwise
      relation := by
  refine (h _ document.chosen_names).sublist ?_
  rw [List.map_filterMap, List.map_filterMap]
  refine filterMap_sublist_filterMap fun definition place hp => ?_
  obtain ⟨item, hi, rfl⟩ := Option.map_eq_some_iff.mp hp
  rw [hpick definition item hi, Option.map_some]

/-- Each list of arguments has its names at places chosen in written order. -/
theorem pairwise_argumentLists {names : List (Located σ String)}
    (hnames : names ∈ document.argumentLists) : (names.map (·.place)).Pairwise relation := by
  rw [argumentLists, ← List.append_assoc, List.mem_append] at hnames
  rcases hnames with hnames | hnames
  · have hlist := (argumentLists_perm document.definitions).mem_iff.mpr hnames
    obtain ⟨definition, hd, hown⟩ := List.mem_flatMap.mp hlist
    refine (h _ document.chosen_argumentLists).sublist ?_
    have hsub := (List.singleton_sublist.mpr hd).flatMap fun definition =>
      definition.argumentLists.flatten.map (·.place)
    rw [List.flatMap_singleton] at hsub
    exact ((List.sublist_flatten_of_mem hown).map _).trans hsub
  · obtain ⟨application, hmem, rfl⟩ := List.mem_map.mp hnames
    have hevent : Event.directive application.1 application.2 ∈ document.events := by
      rw [document.events_perm_occurrences.mem_iff, occurrences, List.append_assoc]
      exact List.mem_append_left _ (List.mem_map.mpr ⟨application, hmem, rfl⟩)
    refine (h _ document.chosen_argumentNames).sublist ?_
    have hsub := (List.singleton_sublist.mpr hevent).flatMap fun event =>
      event.argumentNames.map (·.place)
    rwa [List.flatMap_singleton] at hsub

/-- What holds of places chosen in written order holds of what is repeated and of each repeat. -/
theorem follows_repeats : ∀ repeated ∈ document.repeats, repeated.Follows relation := by
  have htypes : (document.typeDefinitions.map (·.2.name.place)).Pairwise relation :=
    pairwise_names h _ fun definition item hi => by
      cases definition <;> cases hi
      rfl
  have hdirectives : (document.directiveDefinitions.map (·.name.place)).Pairwise relation :=
    pairwise_names h _ fun definition item hi => by
      cases definition <;> cases hi
      rfl
  have hmembers : (document.members.map (·.name.place)).Pairwise relation :=
    (h _ document.chosen_members).sublist ((withEarlier_sublist givenMembers_sublist _ _).map _)
  unfold repeats
  simp only [List.forall_mem_append]
  refine ⟨⟨⟨⟨⟨follows_repeatsOfDefined htypes, follows_repeatsOfDefined hdirectives⟩, ?_⟩,
    follows_repeatsIn (h _ document.chosen_operations)⟩, follows_repeatsIn hmembers⟩, ?_⟩
  · intro repeated hr
    obtain ⟨first, again, hrelated, rfl⟩ :=
      exists_of_mem_againstFirst (h _ document.chosen_schemas) hr
    intro other hother
    cases hother
    exact hrelated
  · intro repeated hr
    obtain ⟨names, hnames, hrepeated⟩ := List.mem_flatMap.mp hr
    exact follows_repeatsIn (pairwise_argumentLists h hnames) repeated hrepeated

end Document

end SdlGraph
