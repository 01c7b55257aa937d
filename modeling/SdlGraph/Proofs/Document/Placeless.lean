import SdlGraph.Catalog.Assembly
import SdlGraph.Proofs.Document.Readable
import SdlGraph.Proofs.Document.Faithful

/-!
# Documents apart from places

How a document may be written, what the grammar asks of it and what its definitions give to a
catalog do not depend on the places it keeps. So token lists that are read as documents are read,
one after the other, as a document with the definitions of both.
-/

namespace SdlGraph

open Spelling

variable {σ τ : Type} (f : σ → τ)

@[simp]
theorem Located.value_mapPlace {α : Type} (item : Located σ α) :
    (item.mapPlace f).value = item.value := rfl

namespace Spelling

variable {α β : Type} (item : β → Language Token) (change : α → β) (items : List α)

@[simp]
theorem each_map :
    each item (items.map change) = each (fun value => item (change value)) items := by
  rw [each, List.map_map]
  rfl

@[simp]
theorem block_map (opening close : Punctuator) : block item opening close (items.map change) =
    block (fun value => item (change value)) opening close items := by
  cases items with
  | nil => rfl
  | cons first rest =>
    show [mark opening, each item ((first :: rest).map change), mark close].prod = _
    rw [each_map]
    rfl

@[simp]
theorem separated_map (between : Punctuator) : separated item between (items.map change) =
    separated (fun value => item (change value)) between items := by
  cases items <;> simp [separated]

@[simp]
theorem describing_mapPlace (described : Option (Located σ String)) :
    describing (described.map (·.mapPlace f)) = describing described := by
  cases described <;> rfl

end Spelling

section Spellings

@[simp]
theorem Argument.spelling_mapPlace (argument : Argument σ) :
    (argument.mapPlace f).spelling = argument.spelling := rfl

@[simp]
theorem DirectiveUse.spelling_mapPlace (use : DirectiveUse σ) :
    (use.mapPlace f).spelling = use.spelling := by
  simp [spelling, mapPlace]

@[simp]
theorem InputValue.spelling_mapPlace (input : InputValue σ) :
    (input.mapPlace f).spelling = input.spelling := by
  cases h : input.default <;>
    simp [spelling, mapPlace, TypeUse.mapPlace, defaultSpelling, h]

@[simp]
theorem Field.spelling_mapPlace (field : Field σ) :
    (field.mapPlace f).spelling = field.spelling := by
  simp [spelling, mapPlace, TypeUse.mapPlace]

@[simp]
theorem EnumValue.spelling_mapPlace (value : EnumValue σ) :
    (value.mapPlace f).spelling = value.spelling := by
  simp [spelling, mapPlace]

@[simp]
theorem TypeBody.interfaces_mapPlace (body : TypeBody σ) :
    (body.mapPlace f).interfaces = body.interfaces.map (·.mapPlace f) := by
  cases body <;> rfl

@[simp]
theorem TypeBody.fields_mapPlace (body : TypeBody σ) :
    (body.mapPlace f).fields = body.fields.map (·.mapPlace f) := by
  cases body <;> rfl

@[simp]
theorem TypeBody.inputFields_mapPlace (body : TypeBody σ) :
    (body.mapPlace f).inputFields = body.inputFields.map (·.mapPlace f) := by
  cases body <;> rfl

@[simp]
theorem TypeBody.members_mapPlace (body : TypeBody σ) :
    (body.mapPlace f).members = body.members.map (·.mapPlace f) := by
  cases body <;> rfl

@[simp]
theorem TypeBody.values_mapPlace (body : TypeBody σ) :
    (body.mapPlace f).values = body.values.map (·.mapPlace f) := by
  cases body <;> rfl

@[simp]
theorem TypeDeclaration.kind_mapPlace (declaration : TypeDeclaration σ) :
    (declaration.mapPlace f).kind = declaration.kind := by
  obtain ⟨name, directives, body, place⟩ := declaration
  cases body <;> rfl

@[simp]
theorem TypeBody.interfacesSpelling_mapPlace (names : List (Located σ String)) :
    interfacesSpelling (names.map (·.mapPlace f)) = interfacesSpelling names := by
  cases names with
  | nil => rfl
  | cons first rest =>
    show [word "implements", optional (mark .amp), separated Located.nameSpelling .amp
      ((first :: rest).map (·.mapPlace f))].prod = _
    rw [separated_map]
    rfl

@[simp]
theorem TypeBody.membersSpelling_mapPlace (names : List (Located σ String)) :
    membersSpelling (names.map (·.mapPlace f)) = membersSpelling names := by
  cases names with
  | nil => rfl
  | cons first rest =>
    show [mark .equals, optional (mark .pipe), separated Located.nameSpelling .pipe
      ((first :: rest).map (·.mapPlace f))].prod = _
    rw [separated_map]
    rfl

@[simp]
theorem TypeBody.spelling_mapPlace (body : TypeBody σ) :
    (body.mapPlace f).spelling = body.spelling := by
  cases body <;> simp [mapPlace, spelling]

@[simp]
theorem TypeDeclaration.spelling_mapPlace (declaration : TypeDeclaration σ) :
    (declaration.mapPlace f).spelling = declaration.spelling := by
  rw [spelling, kind_mapPlace]
  simp [spelling, mapPlace]

@[simp]
theorem RootOperation.spelling_mapPlace (root : RootOperation σ) :
    (root.mapPlace f).spelling = root.spelling := rfl

@[simp]
theorem Located.locationSpelling_mapPlace (location : Located σ DirectiveLocation) :
    (location.mapPlace f).locationSpelling = location.locationSpelling := rfl

@[simp]
theorem SchemaBlock.spelling_mapPlace (block : SchemaBlock σ) :
    (block.mapPlace f).spelling = block.spelling := by
  simp [spelling, mapPlace]

@[simp]
theorem DirectiveDeclaration.spelling_mapPlace (declaration : DirectiveDeclaration σ) :
    (declaration.mapPlace f).spelling = declaration.spelling := by
  cases h : declaration.isRepeatable <;> simp [spelling, mapPlace, h]

@[simp]
theorem Definition.spelling_mapPlace (definition : Definition σ) :
    (definition.mapPlace f).spelling = definition.spelling := by
  cases definition <;> simp [mapPlace, spelling]

end Spellings

section Grammar

variable {f}

theorem DirectiveUse.Grammatical.mapPlace {use : DirectiveUse σ} (h : use.Grammatical) :
    (use.mapPlace f).Grammatical :=
  List.forall_mem_map.mpr fun argument ha => h argument ha

/-- Directives that are what the grammar asks for stay so. -/
theorem DirectiveUse.grammatical_map {uses : List (DirectiveUse σ)}
    (h : ∀ use ∈ uses, use.Grammatical) : ∀ use ∈ uses.map (·.mapPlace f), use.Grammatical :=
  List.forall_mem_map.mpr fun use hu => (h use hu).mapPlace

theorem InputValue.Grammatical.mapPlace {input : InputValue σ} (h : input.Grammatical) :
    (input.mapPlace f).Grammatical where
  type := h.type
  default := by
    intro written hw
    obtain ⟨original, ho, rfl⟩ := Option.map_eq_some_iff.mp hw
    exact h.default original ho
  directives := DirectiveUse.grammatical_map h.directives

theorem Field.Grammatical.mapPlace {field : Field σ} (h : field.Grammatical) :
    (field.mapPlace f).Grammatical where
  arguments := List.forall_mem_map.mpr fun argument ha => (h.arguments argument ha).mapPlace
  type := h.type
  directives := DirectiveUse.grammatical_map h.directives

theorem EnumValue.Grammatical.mapPlace {value : EnumValue σ} (h : value.Grammatical) :
    (value.mapPlace f).Grammatical where
  name := h.name
  directives := DirectiveUse.grammatical_map h.directives

theorem TypeDeclaration.Grammatical.mapPlace {declaration : TypeDeclaration σ}
    (h : declaration.Grammatical) : (declaration.mapPlace f).Grammatical where
  directives := DirectiveUse.grammatical_map h.directives
  body := {
    fields := by
      rw [TypeDeclaration.mapPlace, TypeBody.fields_mapPlace]
      exact List.forall_mem_map.mpr fun field hf => (h.body.fields field hf).mapPlace
    inputFields := by
      rw [TypeDeclaration.mapPlace, TypeBody.inputFields_mapPlace]
      exact List.forall_mem_map.mpr fun field hf => (h.body.inputFields field hf).mapPlace
    values := by
      rw [TypeDeclaration.mapPlace, TypeBody.values_mapPlace]
      exact List.forall_mem_map.mpr fun value hv => (h.body.values value hv).mapPlace }

theorem DirectiveDeclaration.Grammatical.mapPlace {declaration : DirectiveDeclaration σ}
    (h : declaration.Grammatical) : (declaration.mapPlace f).Grammatical where
  arguments := List.forall_mem_map.mpr fun argument ha => (h.arguments argument ha).mapPlace
  locations := mt List.map_eq_nil_iff.mp h.locations

/-- A definition that is what the grammar asks for stays so when its places change. -/
theorem Definition.Grammatical.mapPlace {definition : Definition σ} (h : definition.Grammatical) :
    (definition.mapPlace f).Grammatical := by
  cases definition with
  | schema described block =>
    exact ⟨DirectiveUse.grammatical_map h.1, mt List.map_eq_nil_iff.mp h.2⟩
  | extendSchema block =>
    exact ⟨DirectiveUse.grammatical_map h.1,
      h.2.imp (mt List.map_eq_nil_iff.mp) (mt List.map_eq_nil_iff.mp)⟩
  | type described declaration => exact TypeDeclaration.Grammatical.mapPlace h
  | extendType declaration =>
    refine ⟨h.1.mapPlace, h.2.imp (mt List.map_eq_nil_iff.mp) fun hempty => ?_⟩
    exact (TypeBody.isEmpty_mapPlace f declaration.body).trans hempty
  | directive described declaration => exact DirectiveDeclaration.Grammatical.mapPlace h

end Grammar

/-- Token lists that are read as documents are read, one after the other, as a document with the
definitions of the one and then those of the other. -/
theorem Document.read_append {us vs : List Token} {first second : Document Extent}
    (hfirst : Document.read us = .ok first) (hsecond : Document.read vs = .ok second) :
    ∃ document, Document.read (us ++ vs) = .ok document ∧
      document.mapPlace noPlace =
        ⟨(first.mapPlace noPlace).definitions ++ (second.mapPlace noPlace).definitions⟩ := by
  obtain ⟨hus, hfine⟩ := mem_spelling_of_read hfirst
  obtain ⟨hvs, hfine'⟩ := mem_spelling_of_read hsecond
  have hspelling : us ++ vs ∈ each Definition.spelling
      ((first.definitions ++ second.definitions).map (Definition.mapPlace noPlace)) := by
    rw [each_map, each, List.map_append, List.prod_append]
    simp only [Definition.spelling_mapPlace]
    exact Language.append_mem_mul hus hvs
  have hgrammatical : ∀ definition ∈
      (first.definitions ++ second.definitions).map (Definition.mapPlace noPlace),
        definition.Grammatical := by
    refine List.forall_mem_map.mpr fun definition hd => ?_
    rcases List.mem_append.mp hd with hd | hd
    · exact (hfine.definitions definition hd).mapPlace
    · exact (hfine'.definitions definition hd).mapPlace
  obtain ⟨read, hr, hread⟩ := Parser.reads_definitions hgrammatical hspelling 0
  rw [List.append_nil] at hr
  refine ⟨⟨read⟩, ?_, ?_⟩
  · cases us with
    | nil => cases hfirst
    | cons token us =>
      rw [List.cons_append] at hr ⊢
      simp only [Document.read, hr]
  · rw [Document.mapPlace, hread, List.map_append]
    rfl

end SdlGraph
