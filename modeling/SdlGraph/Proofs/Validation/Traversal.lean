import Mathlib.Algebra.BigOperators.Group.List.Basic
import Mathlib.Algebra.Order.Group.Multiset
import Mathlib.Tactic.Abel
import SdlGraph.Catalog.Build
import SdlGraph.Proofs.Document.Ranges
import SdlGraph.Proofs.Validation.Declaration

/-!
# Checking goes through a document as a walk does

What is found about unknown names and misplaced directives is told by the walk through the document:
each type met whose name is not known and each directive met that is not defined or not allowed
gives one finding, in the order of the walk, and nothing else does. The walk meets all that the
document holds of these, each once: sorted by the kind of place it is a list of all of them, and in
a document that is read no two of them stand at the same place.
-/

namespace SdlGraph

variable {σ : Type}

namespace Document

variable (document : Document σ)

instance decidableKnows (name : String) : Decidable (document.Knows name) :=
  inferInstanceAs (Decidable (_ ∨ _ ∨ _))

/-- The locations listed by the definition of a directive: the built-in one, or else the first one
of the document. -/
def listedLocations? (name : String) : Option (List DirectiveLocation) :=
  match BuiltIn.directives.find? (·.name == name) with
  | some entry => some entry.locations
  | none => (document.directiveDefinitions.find? (·.name.value == name)).map fun declaration =>
      declaration.locations.map (·.value)

/-- What there is to object to something met on a walk: a code and the place to point at. -/
def objection? : Event σ → Option (String × σ)
  | .typeUse written =>
    if document.Knows written.type.baseName then none else some ("E200", written.namePlace)
  | .reference name => if document.Knows name.value then none else some ("E200", name.place)
  | .directive applied location =>
    match document.listedLocations? applied.name.value with
    | none => some ("E205", applied.place)
    | some listed => if location ∈ listed then none else some ("E205", applied.place)

/-- The fields of object and interface types. -/
def fields : List (Field σ) := document.typeDeclarations.flatMap (·.body.fields)

/-- The fields of input object types. -/
def inputFields : List (InputValue σ) := document.typeDeclarations.flatMap (·.body.inputFields)

/-- The values of enum types. -/
def enumValues : List (EnumValue σ) := document.typeDeclarations.flatMap (·.body.values)

/-- The arguments of fields and of directive definitions. -/
def argumentDefinitions : List (InputValue σ) :=
  document.fields.flatMap (·.arguments) ++ document.directiveDefinitions.flatMap (·.arguments)

/-- The directives applied in a document with their locations, by the kind of place. -/
def applications : List (DirectiveUse σ × DirectiveLocation) :=
  document.schemaBlocks.flatMap (fun block => block.directives.map (·, .schema)) ++
    document.typeDeclarations.flatMap (fun declaration =>
      declaration.directives.map (·, .ofKind declaration.kind)) ++
    document.fields.flatMap (fun field => field.directives.map (·, .fieldDefinition)) ++
    document.argumentDefinitions.flatMap (fun argument =>
      argument.directives.map (·, .argumentDefinition)) ++
    document.inputFields.flatMap (fun field =>
      field.directives.map (·, .inputFieldDefinition)) ++
    document.enumValues.flatMap fun value => value.directives.map (·, .enumValue)

/-- The types written after colons in a document. -/
def annotations : List (TypeUse σ) :=
  document.fields.map (·.type) ++ document.argumentDefinitions.map (·.type) ++
    document.inputFields.map (·.type)

/-- The names of interfaces, of union members and of the types of root operations. -/
def references : List (Located σ String) :=
  document.typeDeclarations.flatMap (·.body.interfaces) ++
    document.typeDeclarations.flatMap (·.body.members) ++ document.operations.map (·.type)

/-- All that a walk has to meet, by the kind of what is met and of its place. -/
def occurrences : List (Event σ) :=
  document.applications.map (fun application => .directive application.1 application.2) ++
    document.annotations.map .typeUse ++ document.references.map .reference

end Document

/-- What a finding says about the name of a type or a directive: its code and its place. -/
def Finding.aboutName? : Finding σ → Option (String × σ)
  | unknownType name => some ("E200", name.place)
  | unknownDirective _ place _ => some ("E205", place)
  | misplacedDirective _ place _ _ => some ("E205", place)
  | _ => none

/-- Findings and things met on a walk agree: what the findings say about names is what there is to
object, in the same order. -/
def Document.Agrees (document : Document σ) (findings : List (Finding σ))
    (events : List (Event σ)) : Prop :=
  findings.filterMap Finding.aboutName? = events.filterMap document.objection?

namespace Document

variable {document : Document σ}

namespace Agrees

variable {α : Type} {findings findings' : List (Finding σ)} {events events' : List (Event σ)}

theorem nil : document.Agrees [] [] := rfl

theorem append (h : document.Agrees findings events) (h' : document.Agrees findings' events') :
    document.Agrees (findings ++ findings') (events ++ events') := by
  rw [Agrees, List.filterMap_append, List.filterMap_append, h, h']

/-- Findings that say nothing about names agree with nothing met. -/
theorem silent (h : ∀ finding ∈ findings, finding.aboutName? = none) :
    document.Agrees findings [] := List.filterMap_eq_nil_iff.mpr h

theorem after (h : document.Agrees findings []) (h' : document.Agrees findings' events) :
    document.Agrees (findings ++ findings') events := h.append h'

/-- Items are gone through in the same order. -/
theorem flatMap {find : α → List (Finding σ)} {meet : α → List (Event σ)}
    (h : ∀ item, document.Agrees (find item) (meet item)) (items : List α) :
    document.Agrees (items.flatMap find) (items.flatMap meet) := by
  induction items with
  | nil => exact nil
  | cons item items ih =>
    rw [List.flatMap_cons, List.flatMap_cons]
    exact (h item).append ih

/-- What came before an item does not matter for what is said about names. -/
theorem withEarlier {find : List α → α → List (Finding σ)} {meet : α → List (Event σ)}
    (h : ∀ before item, document.Agrees (find before item) (meet item)) (earlier items : List α) :
    document.Agrees (SdlGraph.withEarlier find earlier items) (items.flatMap meet) := by
  induction items generalizing earlier with
  | nil => exact nil
  | cons item items ih =>
    rw [List.flatMap_cons, SdlGraph.withEarlier]
    exact (h earlier item).append (ih _)

/-- Items of which nothing is said about names have nothing to be met. -/
theorem withEarlier_nil {find : List α → α → List (Finding σ)}
    (h : ∀ before item, document.Agrees (find before item) []) (earlier items : List α) :
    document.Agrees (SdlGraph.withEarlier find earlier items) [] := by
  have hall : document.Agrees (SdlGraph.withEarlier find earlier items)
      (items.flatMap fun _ => []) := withEarlier h earlier items
  rwa [List.flatMap_eq_nil_iff.mpr fun _ _ => rfl] at hall

/-- Repetitions are not about names that stand for something else. -/
theorem repetitions [BEq α] {report : Located σ α → σ → Finding σ}
    (h : ∀ item first, (report item first).aboutName? = none) (earlier items : List (Located σ α)) :
    document.Agrees (SdlGraph.repetitions report earlier items) [] := by
  refine withEarlier_nil (fun before item => silent fun finding hf => ?_) earlier items
  obtain ⟨first, -, rfl⟩ := Option.map_eq_some_iff.mp (Option.mem_toList.mp hf)
  exact h item first

end Agrees

/-- The locations that the check looks at are those listed by the definition that counts. -/
theorem allowedLocations?_eq (name : String) :
    allowedLocations? document.definitions name = document.listedLocations? name := by
  have hfind (definitions : List (Definition σ)) (hnone : BuiltIn.directive? name = none) :
      (definitions.filterMap Definition.soundDirective?).find? (·.name.value == name) =
        (Document.mk definitions).directiveDefinitions.find? (·.name.value == name) := by
    induction definitions with
    | nil => rfl
    | cons definition rest ih =>
      cases definition with
      | directive description declaration =>
        by_cases hname : declaration.name.value = name
        · simp [directiveDefinitions, Definition.soundDirective?, hname, hnone]
        · have hskip : (declaration.name.value == name) = false := beq_eq_false_iff_ne.mpr hname
          cases hbuiltIn : (BuiltIn.directive? declaration.name.value).isSome <;>
            simpa [directiveDefinitions, Definition.soundDirective?, hbuiltIn, hskip] using ih
      | _ => simpa [directiveDefinitions, Definition.soundDirective?] using ih
  unfold allowedLocations? listedLocations?
  cases hbuiltIn : BuiltIn.directive? name with
  | some entry =>
    rw [BuiltIn.directive?] at hbuiltIn
    rw [hbuiltIn]
  | none =>
    rw [declaredDirective?, hfind _ hbuiltIn]
    rw [BuiltIn.directive?] at hbuiltIn
    rw [hbuiltIn]

/-- A bare name is objected to unless it is known. -/
theorem agrees_typeName (name : Located σ String) :
    document.Agrees (Check.typeName document.definitions name) [.reference name] := by
  by_cases hknown : document.Knows name.value
  · simp [Agrees, Check.typeName, objection?, isKnownType_iff.mpr hknown, hknown]
  · have hunknown := mt isKnownType_iff.mp hknown
    simp [Agrees, Check.typeName, objection?, hunknown, hknown, Finding.aboutName?]

theorem agrees_typeUse (written : TypeUse σ) :
    document.Agrees (Check.typeUse document.definitions written) [.typeUse written] :=
  @agrees_typeName σ document ⟨written.type.baseName, written.namePlace⟩

/-- A directive is objected to unless its definition lists the location; its arguments are not about
names. -/
theorem agrees_directiveUse (location : DirectiveLocation) (applied : DirectiveUse σ) :
    document.Agrees (Check.directiveUse document.definitions location applied)
      [.directive applied location] := by
  have hplaced : document.Agrees
      (match allowedLocations? document.definitions applied.name.value with
        | none => [.unknownDirective applied.name.value applied.place location]
        | some allowed =>
          if location ∈ allowed then []
          else [.misplacedDirective applied.name.value applied.place location allowed])
      [.directive applied location] := by
    rw [allowedLocations?_eq]
    cases hlisted : document.listedLocations? applied.name.value with
    | none => simp [Agrees, objection?, hlisted, Finding.aboutName?]
    | some listed =>
      by_cases hmem : location ∈ listed <;>
        simp [Agrees, objection?, hlisted, hmem, Finding.aboutName?]
  exact hplaced.append (.repetitions (fun _ _ => rfl) _ _)

theorem agrees_directiveUses (location : DirectiveLocation) (uses : List (DirectiveUse σ)) :
    document.Agrees (uses.flatMap (Check.directiveUse document.definitions location))
      (DirectiveUse.events location uses) := by
  rw [DirectiveUse.events, List.map_eq_flatMap]
  exact .flatMap (agrees_directiveUse location) uses

theorem agrees_typeNames (names : List (Located σ String)) :
    document.Agrees (names.flatMap (Check.typeName document.definitions))
      (names.map .reference) := by
  rw [List.map_eq_flatMap]
  exact .flatMap agrees_typeName names

theorem agrees_inputValue (location : DirectiveLocation) (input : InputValue σ) :
    document.Agrees (Check.inputValue document.definitions location input)
      (input.events location) :=
  (agrees_typeUse input.type).append (agrees_directiveUses location input.directives)

/-- Argument definitions are gone through one by one after the search for repetitions. -/
theorem agrees_arguments (arguments : List (InputValue σ)) :
    document.Agrees (Check.arguments document.definitions arguments)
      (arguments.flatMap (InputValue.events .argumentDefinition)) :=
  (Agrees.repetitions (fun _ _ => rfl) _ _).append
    (.flatMap (agrees_inputValue .argumentDefinition) arguments)

theorem agrees_field (field : Field σ) :
    document.Agrees (Check.field document.definitions field) field.events := by
  have hparts : document.Agrees _ _ := (agrees_arguments field.arguments).append
    ((agrees_typeUse field.type).append (agrees_directiveUses .fieldDefinition field.directives))
  rw [← List.append_assoc] at hparts
  exact hparts

/-- The parts of a type are gone through in the order of the walk. -/
theorem agrees_typeParts (declaration : TypeDeclaration σ) :
    document.Agrees (Check.typeParts document.definitions declaration) declaration.events :=
  ((((agrees_typeNames declaration.body.interfaces).append
    (agrees_directiveUses (.ofKind declaration.kind) declaration.directives)).append
    (.flatMap agrees_field declaration.body.fields)).append
    (.flatMap (agrees_inputValue .inputFieldDefinition) declaration.body.inputFields)).append
    (agrees_typeNames declaration.body.members) |>.append
    (.flatMap (fun value => agrees_directiveUses .enumValue value.directives)
      declaration.body.values)

/-- The type of a root operation is objected to as a bare name, and for reasons that are not about
its name. -/
theorem agrees_rootType (root : RootOperation σ) :
    document.Agrees (Check.rootType document.definitions root) [.reference root.type] := by
  have hname : document.Agrees _ _ := agrees_typeName root.type
  unfold Check.rootType
  cases hdeclared : declaredType? document.definitions root.type.value with
  | none =>
    rw [Check.typeName] at hname
    split at hname
    next hknown =>
      rw [if_pos hknown]
      exact hname
    next hunknown =>
      rw [if_neg hunknown]
      exact hname
  | some defined =>
    have hknown : isKnownType document.definitions root.type.value = true := by
      simp [isKnownType, hdeclared]
    rw [Check.typeName, if_pos hknown] at hname
    dsimp only
    split
    next => exact hname
    next => exact hname

theorem agrees_rootOperation (earlier : List (RootOperation σ)) (root : RootOperation σ) :
    document.Agrees (Check.rootOperation document.definitions earlier root)
      [.reference root.type] :=
  (Agrees.repetitions (fun _ _ => rfl) _ _).append (agrees_rootType root)

theorem agrees_schemaBlock (earlier : List (Definition σ)) (block : SchemaBlock σ) :
    document.Agrees (Check.schemaBlock document.definitions earlier block) block.events := by
  have hroots : document.Agrees (withEarlier (Check.rootOperation document.definitions)
      (earlier.flatMap Definition.operations) block.operations)
      (block.operations.map (.reference ·.type)) := by
    rw [List.map_eq_flatMap]
    exact .withEarlier agrees_rootOperation _ _
  exact (agrees_directiveUses .schema block.directives).append hroots

/-- Repeated members are not about names that stand for something else. -/
theorem agrees_members [DecidableEq σ] (earlier : List (Definition σ))
    (declaration : TypeDeclaration σ) :
    document.Agrees (Check.members document.definitions earlier declaration) [] := by
  refine .repetitions (fun item first => ?_) _ _
  cases declaration.kind <;> rfl

theorem agrees_extensionTarget (declaration : TypeDeclaration σ) :
    document.Agrees (Check.extensionTarget document.definitions declaration) [] := by
  refine .silent fun finding hf => ?_
  unfold Check.extensionTarget at hf
  split at hf
  next => rw [List.mem_singleton.mp hf]; rfl
  next =>
    split at hf
    next => cases hf
    next => rw [List.mem_singleton.mp hf]; rfl

/-- Each definition is gone through in the order of the walk. -/
theorem agrees_definition [DecidableEq σ] (earlier : List (Definition σ))
    (definition : Definition σ) :
    document.Agrees (Check.definition document.definitions earlier definition)
      definition.events := by
  cases definition with
  | schema description block =>
    refine .after (.silent fun finding hf => ?_) (agrees_schemaBlock earlier block)
    obtain ⟨first, -, rfl⟩ := Option.map_eq_some_iff.mp (Option.mem_toList.mp hf)
    rfl
  | extendSchema block => exact agrees_schemaBlock earlier block
  | type description declaration =>
    refine .after ?_ (agrees_typeParts declaration)
    split
    next => exact agrees_members earlier declaration
    next => exact .nil
  | extendType declaration =>
    exact ((agrees_extensionTarget declaration).after
      (agrees_members earlier declaration)).after (agrees_typeParts declaration)
  | directive description declaration => exact agrees_arguments declaration.arguments

/-- Whether a definition counts is not about names that stand for something else. -/
theorem agrees_registration (earlier : List (Definition σ)) (definition : Definition σ) :
    document.Agrees (Check.registration earlier definition) [] := by
  refine .silent fun finding hf => ?_
  cases definition with
  | type description declaration =>
    simp only [Check.registration] at hf
    split at hf
    next => rw [List.mem_singleton.mp hf]; rfl
    next =>
      split at hf
      next => rw [List.mem_singleton.mp hf]; rfl
      next => cases hf
  | directive description declaration =>
    simp only [Check.registration] at hf
    split at hf
    next => rw [List.mem_singleton.mp hf]; rfl
    next =>
      split at hf
      next => rw [List.mem_singleton.mp hf]; rfl
      next => cases hf
  | _ => cases hf

/-- What is found about names is what there is to object on the walk. -/
theorem agrees_findings [DecidableEq σ] (document : Document σ) :
    document.Agrees document.findings document.events := by
  have hfirst : document.Agrees (withEarlier Check.registration [] document.definitions) [] :=
    .withEarlier_nil agrees_registration [] document.definitions
  exact hfirst.after (.withEarlier agrees_definition [] document.definitions)

end Document

/-- Pairs of parts of the same items are all first parts and all second parts. -/
theorem coe_flatMap_append {α β : Type} (first second : α → List β) (items : List α) :
    ((items.flatMap fun item => first item ++ second item : List β) : Multiset β) =
      ↑(items.flatMap first) + ↑(items.flatMap second) :=
  Multiset.coe_eq_coe.mpr (List.flatMap_append_perm items first second).symm

namespace Document

variable {document : Document σ}

/-- What is met in input values are their types and their directives. -/
theorem coe_events_inputs (location : DirectiveLocation) (inputs : List (InputValue σ)) :
    ((inputs.flatMap (InputValue.events location) : List (Event σ)) : Multiset (Event σ)) =
      ↑(inputs.map fun input => Event.typeUse input.type) +
        ↑(inputs.flatMap fun input => DirectiveUse.events location input.directives) := by
  rw [List.map_eq_flatMap, ← coe_flatMap_append]
  rfl

/-- What is met in fields are their arguments, their types and their directives. -/
theorem coe_events_fields (fields : List (Field σ)) :
    ((fields.flatMap Field.events : List (Event σ)) : Multiset (Event σ)) =
      ↑((fields.flatMap (·.arguments)).flatMap (InputValue.events .argumentDefinition)) +
        (↑(fields.map fun field => Event.typeUse field.type) +
          ↑(fields.flatMap fun field =>
            DirectiveUse.events .fieldDefinition field.directives)) := by
  rw [List.map_eq_flatMap, ← coe_flatMap_append, List.flatMap_assoc, ← coe_flatMap_append]
  rfl

/-- The only definition of a document is a schema block. -/
theorem coe_events_block {block : SchemaBlock σ} (hblocks : document.schemaBlocks = [block])
    (htypes : document.typeDeclarations = []) (hdirectives : document.directiveDefinitions = [])
    (hoperations : document.operations = block.operations) :
    (block.events : Multiset (Event σ)) = ↑document.occurrences := by
  simp [occurrences, applications, annotations, references, fields, inputFields, enumValues,
    argumentDefinitions, hblocks, htypes, hdirectives, hoperations, SchemaBlock.events,
    DirectiveUse.events, Function.comp_def]

/-- The only definition of a document is a type or an extension of one. -/
theorem coe_events_type {declaration : TypeDeclaration σ} (hblocks : document.schemaBlocks = [])
    (htypes : document.typeDeclarations = [declaration])
    (hdirectives : document.directiveDefinitions = []) (hoperations : document.operations = []) :
    (declaration.events : Multiset (Event σ)) = ↑document.occurrences := by
  simp only [occurrences, applications, annotations, references, fields, inputFields, enumValues,
    argumentDefinitions, hblocks, htypes, hdirectives, hoperations, TypeDeclaration.events,
    DirectiveUse.events, coe_events_inputs, coe_events_fields, ← Multiset.coe_add,
    List.flatMap_cons, List.flatMap_nil, List.map_append, List.map_flatMap, List.map_map,
    List.map_nil, List.append_nil, Function.comp_def, Multiset.coe_nil]
  abel

/-- The only definition of a document is one of a directive. -/
theorem coe_events_directive {declaration : DirectiveDeclaration σ}
    (hblocks : document.schemaBlocks = []) (htypes : document.typeDeclarations = [])
    (hdirectives : document.directiveDefinitions = [declaration])
    (hoperations : document.operations = []) :
    (declaration.events : Multiset (Event σ)) = ↑document.occurrences := by
  simp only [occurrences, applications, annotations, references, fields, inputFields, enumValues,
    argumentDefinitions, hblocks, htypes, hdirectives, hoperations, DirectiveDeclaration.events,
    DirectiveUse.events, coe_events_inputs, ← Multiset.coe_add, List.flatMap_cons,
    List.flatMap_nil, List.map_append, List.map_flatMap, List.map_map, List.map_nil,
    List.append_nil, Function.comp_def, Multiset.coe_nil]
  abel

/-- What is met in a definition is all that a document of this definition alone holds. -/
theorem coe_events_definition (definition : Definition σ) :
    (definition.events : Multiset (Event σ)) = ↑(Document.mk [definition]).occurrences := by
  cases definition with
  | schema description block => exact coe_events_block rfl rfl rfl (List.append_nil _)
  | extendSchema block => exact coe_events_block rfl rfl rfl (List.append_nil _)
  | type description declaration => exact coe_events_type rfl rfl rfl rfl
  | extendType declaration => exact coe_events_type rfl rfl rfl rfl
  | directive description declaration => exact coe_events_directive rfl rfl rfl rfl

/-- What documents hold is held by one after the other. -/
theorem occurrences_append (first second : List (Definition σ)) :
    ((Document.mk (first ++ second)).occurrences : Multiset (Event σ)) =
      ↑(Document.mk first).occurrences + ↑(Document.mk second).occurrences := by
  simp only [occurrences, applications, annotations, references, fields, inputFields, enumValues,
    argumentDefinitions, typeDeclarations, schemaBlocks, directiveDefinitions, operations,
    List.filterMap_append, List.flatMap_append, List.map_append, ← Multiset.coe_add]
  abel

/-- A walk meets all that a document holds, each thing once. -/
theorem events_perm_occurrences (document : Document σ) :
    document.events.Perm document.occurrences := by
  obtain ⟨definitions⟩ := document
  rw [← Multiset.coe_eq_coe]
  induction definitions with
  | nil => rfl
  | cons definition definitions ih =>
    calc (↑(Document.mk (definition :: definitions)).events : Multiset (Event σ))
      _ = ↑definition.events + ↑(Document.mk definitions).events := rfl
      _ = ↑(Document.mk [definition]).occurrences + ↑(Document.mk definitions).occurrences := by
        rw [coe_events_definition, ih]
      _ = ↑(Document.mk (definition :: definitions)).occurrences :=
        (occurrences_append [definition] definitions).symm

end Document

/-- The code of a diagnostic and the places it points at, each with whether it is a primary one. -/
def Diagnostic.pointers (problem : Diagnostic σ) : Option String × List (σ × Bool) :=
  (problem.code.map Code.text, problem.labels.map fun label => (label.place, label.isPrimary))

/-- Whether a diagnostic is about the name of a type or a directive. -/
def Diagnostic.isAboutName (problem : Diagnostic σ) : Bool :=
  problem.code.any fun code => code.text == "E200" || code.text == "E205"

namespace SignificantTokens

/-- The diagnostics emitted when a document is checked, in order. -/
def emitted (source : SignificantTokens) (document : Document Extent) : List (Diagnostic Span) :=
  match source.check document with
  | .ok () => []
  | .error problems => problems

variable {source : SignificantTokens}

theorem emitted_eq_map (document : Document Extent) : source.emitted document =
    document.findings.map fun finding => source.locate finding.diagnostic := by
  unfold emitted check
  cases document.findings <;> rfl

/-- The diagnostics about names tell the code and the place of what is said about names. -/
theorem map_pointers_filter (findings : List (Finding Extent)) :
    ((findings.map fun finding => source.locate finding.diagnostic).filter
        (·.isAboutName)).map (·.pointers) =
      (findings.filterMap Finding.aboutName?).map fun (code, place) =>
        (some code, [(place.locate source.spans, true)]) := by
  induction findings with
  | nil => rfl
  | cons finding rest ih =>
    rw [List.map_cons, List.filter_cons, List.filterMap_cons]
    cases finding
    case unknownType => exact congrArg (List.cons _) ih
    case unknownDirective => exact congrArg (List.cons _) ih
    case misplacedDirective => exact congrArg (List.cons _) ih
    all_goals exact ih

/-- The diagnostics about names are, in order, those that a walk through the document gives rise to.
The walk meets all that the document holds, each thing once, and in a document that is read from
tokens each thing met stands behind what was met before. -/
theorem emitted_walk (source : SignificantTokens) (document : Document Extent) :
    ((source.emitted document).filter (·.isAboutName)).map (·.pointers) =
        ((document.events.filterMap document.objection?).map fun (code, place) =>
          (some code, [(place.locate source.spans, true)])) ∧
      document.events.Perm document.occurrences ∧
      (source.document = .ok document → document.events.Pairwise fun earlier later =>
        earlier.place.first < earlier.place.stop ∧ earlier.place.stop ≤ later.place.first) := by
  refine ⟨?_, document.events_perm_occurrences, fun hdocument => ?_⟩
  · rw [emitted_eq_map, map_pointers_filter, Document.agrees_findings document]
  · obtain ⟨hinside, hforward⟩ :=
      Document.apart_of_read (document_eq_ok_iff.mp hdocument) document.chosen_events
    refine (List.pairwise_map.mp hforward).imp_of_mem fun hearlier _ hle => ?_
    exact ⟨(hinside _ (List.mem_map_of_mem hearlier)).2.1, hle⟩

/-- An unknown interface, an unknown type of an argument, one under the wrappers of a list, and an
unknown directive are reported in this order; a directive at a place where it may stand is not. -/
theorem emitted_walk_field :
    let text := "type Query implements Node { a(b: In @deprecated): [Nope!] @x }"
    ∃ source document, SignificantTokens.ofSource text = .ok source ∧
      source.document = .ok document ∧
      ((source.emitted document).filter (·.isAboutName)).map (·.pointers) =
        [(some "E200", [(.between 22 26, true)]), (some "E200", [(.between 34 36, true)]),
          (some "E200", [(.between 52 56, true)]), (some "E205", [(.between 59 61, true)])] ∧
      document.events.length = 5 ∧ document.events.Pairwise fun earlier later =>
        earlier.place.first < earlier.place.stop ∧ earlier.place.stop ≤ later.place.first := by
  intro text
  have hok : (SignificantTokens.ofSource text).isOk = true := by decide +kernel
  obtain ⟨source, hsource⟩ := exists_ok_of_isOk hok
  have hparts : ((SignificantTokens.ofSource text).toOption.bind fun source =>
      source.document.toOption.map fun document =>
        (((source.emitted document).filter (·.isAboutName)).map (·.pointers),
          document.events.length)) =
      some ([(some "E200", [(.between 22 26, true)]), (some "E200", [(.between 34 36, true)]),
        (some "E200", [(.between 52 56, true)]), (some "E205", [(.between 59 61, true)])], 5) := by
    decide +kernel
  rw [hsource] at hparts
  cases hdocument : source.document with
  | error problems => simp [Except.toOption, hdocument] at hparts
  | ok document =>
    simp only [Except.toOption, Option.bind_some, hdocument, Option.map_some, Option.some.injEq,
      Prod.mk.injEq] at hparts
    exact ⟨source, document, hsource, hdocument, hparts.1, hparts.2,
      (emitted_walk source document).2.2 hdocument⟩

end SignificantTokens

end SdlGraph
