import SdlGraph.Proofs.Document.Partition
import SdlGraph.Proofs.Validation.RepeatOrder

/-!
# Repeats are reported

Each finding of something that is given again tells of one repeat. Going through the definitions,
the check looks at several scopes at once; sorted by scope, what it tells is, up to the order, all
that the document repeats. So in the diagnostics of a document each repeat is pointed at once,
together with the first occurrence, and nothing else is reported as given again.
-/

namespace SdlGraph

variable {σ : Type}

/-- What a finding tells of something that is given again. -/
def Finding.repeat? : Finding σ → Option (Repeat σ)
  | duplicateType name _ first => some ⟨.duplicateType, name.place, some first⟩
  | builtInType name => some ⟨.duplicateType, name.place, none⟩
  | duplicateDirective name first => some ⟨.duplicateDirective, name.place, some first⟩
  | builtInDirective name => some ⟨.duplicateDirective, name.place, none⟩
  | duplicateSchema again first => some ⟨.multipleSchemas, again, some first⟩
  | duplicateRoot operation first => some ⟨.duplicateRootOperation, operation.place, some first⟩
  | duplicateField name first => some ⟨.duplicateField, name.place, some first⟩
  | duplicateInputField name first => some ⟨.duplicateField, name.place, some first⟩
  | duplicateEnumValue name first => some ⟨.duplicateEnumValue, name.place, some first⟩
  | duplicateArgument name first => some ⟨.duplicateArgument, name.place, some first⟩
  | _ => none

section Registration

/-- The type that counts for a name is the first one that does not clash. -/
theorem declaredType?_eq_find? (definitions : List (Definition σ)) (name : String) :
    declaredType? definitions name = (((Document.mk definitions).typeDefinitions.filter
      (!·.2.clashes)).find? (·.2.name.value = name)).map (·.2) := by
  have hsound : definitions.filterMap Definition.soundType? =
      ((Document.mk definitions).typeDefinitions.filter (!·.2.clashes)).map (·.2) := by
    unfold Document.typeDefinitions
    induction definitions with
    | nil => rfl
    | cons definition rest ih =>
      cases definition with
      | type description declaration =>
        cases hclash : declaration.clashes <;>
          simpa [Definition.soundType?, hclash] using ih
      | _ => simpa [List.filterMap_cons, Definition.soundType?] using ih
  rw [declaredType?, hsound, List.find?_map]
  simp

/-- The directive that counts for a name is the first one of it that is not built in. -/
theorem declaredDirective?_eq_find? (definitions : List (Definition σ)) (name : String) :
    declaredDirective? definitions name = ((Document.mk definitions).directiveDefinitions.filter
      (!·.clashes)).find? (·.name.value = name) := by
  have hsound : definitions.filterMap Definition.soundDirective? =
      (Document.mk definitions).directiveDefinitions.filter
        (!·.clashes) := by
    unfold Document.directiveDefinitions
    induction definitions with
    | nil => rfl
    | cons definition rest ih =>
      cases definition with
      | directive description declaration =>
        have hsound : Definition.soundDirective? (.directive description declaration) =
            if declaration.clashes then none else some declaration := rfl
        cases hclash : declaration.clashes <;>
          simpa [List.filterMap_cons, hsound, hclash] using ih
      | _ => simpa [List.filterMap_cons, Definition.soundDirective?] using ih
  rw [declaredDirective?, hsound]
  simp

/-- How the first pass goes through the type definitions. -/
def tellTypes : List (Option (Located σ String) × TypeDeclaration σ) →
    Option (Located σ String) × TypeDeclaration σ → List (Repeat σ) :=
  tellTaken (·.2.name.value) (·.2.clashes) (Repeat.ofDefined (·.2.name) .duplicateType)

/-- How the first pass goes through the directive definitions. -/
def tellDirectives : List (DirectiveDeclaration σ) → DirectiveDeclaration σ → List (Repeat σ) :=
  tellTaken (·.name.value) (·.clashes) (Repeat.ofDefined (·.name) .duplicateDirective)

/-- A type is told against the first of its name that counts, or as built in. -/
theorem repeats_registration_type (before : List (Definition σ))
    (description : Option (Located σ String)) (declaration : TypeDeclaration σ) :
    (Check.registration before (.type description declaration)).filterMap Finding.repeat? =
      tellTypes (Document.mk before).typeDefinitions (description, declaration) := by
  simp only [Check.registration, declaredType?_eq_find?, tellTypes, tellTaken]
  cases (List.find? _ _ : Option (Option (Located σ String) × TypeDeclaration σ)) with
  | some first => rfl
  | none =>
    dsimp only [Option.map_none]
    split <;> rfl

/-- A directive is told against the first of its name that is not built in, or as built in. -/
theorem repeats_registration_directive (before : List (Definition σ))
    (description : Option (Located σ String)) (declaration : DirectiveDeclaration σ) :
    (Check.registration before (.directive description declaration)).filterMap Finding.repeat? =
      tellDirectives (Document.mk before).directiveDefinitions declaration := by
  simp only [Check.registration, declaredDirective?_eq_find?, tellDirectives, tellTaken]
  cases (List.find? _ _ : Option (DirectiveDeclaration σ)) with
  | some first => rfl
  | none =>
    change List.filterMap _ (if declaration.clashes then _ else _) = _
    dsimp only
    split <;> rfl

/-- What the first pass finds at a definition tells of it as a type and as a directive. -/
theorem repeats_registration (before : List (Definition σ)) (definition : Definition σ) :
    (Check.registration before definition).filterMap Finding.repeat? =
      withEarlier tellTypes (Document.mk before).typeDefinitions
          (Document.mk [definition]).typeDefinitions ++
        withEarlier tellDirectives (Document.mk before).directiveDefinitions
          (Document.mk [definition]).directiveDefinitions := by
  cases definition with
  | type description declaration =>
    rw [repeats_registration_type]
    simp [Document.typeDefinitions, Document.directiveDefinitions, withEarlier]
  | directive description declaration =>
    rw [repeats_registration_directive]
    simp [Document.typeDefinitions, Document.directiveDefinitions, withEarlier]
  | _ => rfl

/-- The first pass tells of repeated types and directives. -/
theorem repeats_registrations (document : Document σ) :
    ((withEarlier Check.registration [] document.definitions).filterMap Finding.repeat?).Perm
      (repeatsOfDefined (·.2.name) (·.2.clashes) .duplicateType document.typeDefinitions ++
        repeatsOfDefined (·.name) (·.clashes) .duplicateDirective
          document.directiveDefinitions) := by
  rw [filterMap_withEarlier, withEarlier_congr repeats_registration]
  refine (withEarlier_append_perm _ _ _ _).trans (.append ?_ ?_)
  · exact (List.Perm.of_eq (withEarlier_filterMap (fun _ _ => rfl) _)).trans
      (tellTaken_perm _ _ _ _)
  · exact (List.Perm.of_eq (withEarlier_filterMap (fun _ _ => rfl) _)).trans
      (tellTaken_perm _ _ _ _)

end Registration

/-- Repetitions are told against the first item with the value. -/
theorem repeats_repetitions {α : Type} [BEq α] [LawfulBEq α] [DecidableEq α]
    {report : Located σ α → σ → Finding σ} {code : Code}
    (h : ∀ item first, (report item first).repeat? = some ⟨code, item.place, some first⟩)
    (earlier items : List (Located σ α)) :
    (repetitions report earlier items).filterMap Finding.repeat? =
      withEarlier (tellRepeated (·.value) (Repeat.of code (·.place))) earlier items := by
  rw [repetitions, filterMap_withEarlier]
  refine withEarlier_congr fun before item => ?_
  rw [firstPlace?, tellRepeated]
  simp only [beq_eq_decide]
  cases before.find? fun earlier => decide (earlier.value = item.value) with
  | none => rfl
  | some first => simp [h, Repeat.of]

/-- Findings tell of the arguments that are repeated in some lists and in what a walk meets, and of
nothing else that is given again. -/
def TellArguments (findings : List (Finding σ)) (lists : List (List (Located σ String)))
    (events : List (Event σ)) : Prop :=
  (findings.filterMap Finding.repeat?).Perm (lists.flatMap repeatedArguments ++
    events.flatMap fun event => repeatedArguments event.argumentNames)

namespace TellArguments

variable {α : Type} {findings findings' : List (Finding σ)}
  {lists lists' : List (List (Located σ String))} {events events' : List (Event σ)}

theorem nil : TellArguments ([] : List (Finding σ)) [] [] := List.Perm.nil

theorem append (h : TellArguments findings lists events)
    (h' : TellArguments findings' lists' events') :
    TellArguments (findings ++ findings') (lists ++ lists') (events ++ events') := by
  unfold TellArguments
  rw [List.filterMap_append, List.flatMap_append, List.flatMap_append, List.append_assoc]
  refine (List.Perm.append h h').trans ?_
  rw [List.append_assoc]
  exact (List.perm_append_comm_assoc _ _ _).append_left _

theorem flatMap {find : α → List (Finding σ)} {listsOf : α → List (List (Located σ String))}
    {meet : α → List (Event σ)} (h : ∀ item, TellArguments (find item) (listsOf item) (meet item))
    (items : List α) :
    TellArguments (items.flatMap find) (items.flatMap listsOf) (items.flatMap meet) := by
  induction items with
  | nil => exact nil
  | cons item items ih =>
    rw [List.flatMap_cons, List.flatMap_cons, List.flatMap_cons]
    exact (h item).append ih

/-- What is found at items that have no lists of arguments of their own. -/
theorem walk {find : α → List (Finding σ)} {meet : α → List (Event σ)}
    (h : ∀ item, TellArguments (find item) [] (meet item)) (items : List α) :
    TellArguments (items.flatMap find) [] (items.flatMap meet) := by
  have hall := flatMap h items
  rwa [List.flatMap_eq_nil_iff.mpr fun _ _ => rfl] at hall

/-- Findings of nothing that is given again, at something without arguments. -/
theorem silent {event : Event σ} (hnone : ∀ finding ∈ findings, finding.repeat? = none)
    (hevent : event.argumentNames = []) : TellArguments findings [] [event] := by
  rw [TellArguments, List.filterMap_eq_nil_iff.mpr hnone, List.flatMap_singleton, hevent]
  exact .nil

/-- Repetitions of arguments. -/
theorem repetitions (names : List (Located σ String)) :
    TellArguments (SdlGraph.repetitions .duplicateArgument [] names) [names] [] := by
  rw [TellArguments, repeats_repetitions (fun _ _ => rfl), List.flatMap_singleton,
    List.flatMap_nil, List.append_nil]
  exact tellRepeated_perm _ _ _

end TellArguments

namespace Check

variable (all : List (Definition σ))

theorem tellArguments_typeName (name : Located σ String) :
    TellArguments (typeName all name) [] [.reference name] := by
  refine .silent (fun finding hf => ?_) rfl
  unfold typeName at hf
  split at hf
  next => cases hf
  next => rw [List.mem_singleton.mp hf]; rfl

theorem tellArguments_typeUse (written : TypeUse σ) :
    TellArguments (typeUse all written) [] [.typeUse written] :=
  tellArguments_typeName all ⟨written.type.baseName, written.namePlace⟩

/-- At a directive application the arguments given to it may be repeated. -/
theorem tellArguments_directiveUse (location : DirectiveLocation) (applied : DirectiveUse σ) :
    TellArguments (directiveUse all location applied) [] [.directive applied location] := by
  have harguments : TellArguments (repetitions .duplicateArgument []
      (applied.arguments.map (·.name))) [] [.directive applied location] := by
    rw [TellArguments, repeats_repetitions (fun _ _ => rfl), List.flatMap_singleton]
    exact tellRepeated_perm _ _ _
  refine TellArguments.append (?_ : TellArguments _ [] []) harguments
  split
  next => exact .nil
  next => split <;> exact .nil

theorem tellArguments_directiveUses (location : DirectiveLocation)
    (uses : List (DirectiveUse σ)) : TellArguments (uses.flatMap (directiveUse all location)) []
      (DirectiveUse.events location uses) := by
  rw [DirectiveUse.events, List.map_eq_flatMap]
  exact .walk (tellArguments_directiveUse all location) uses

theorem tellArguments_typeNames (names : List (Located σ String)) :
    TellArguments (names.flatMap (typeName all)) [] (names.map .reference) := by
  rw [List.map_eq_flatMap]
  exact .walk (tellArguments_typeName all) names

theorem tellArguments_inputValue (location : DirectiveLocation) (input : InputValue σ) :
    TellArguments (inputValue all location input) [] (input.events location) :=
  (tellArguments_typeUse all input.type).append
    (tellArguments_directiveUses all location input.directives)

theorem tellArguments_arguments (inputs : List (InputValue σ)) :
    TellArguments (arguments all inputs) [inputs.map (·.name)]
      (inputs.flatMap (InputValue.events .argumentDefinition)) :=
  (TellArguments.repetitions _).append (.walk (tellArguments_inputValue all _) inputs)

theorem tellArguments_field (item : Field σ) :
    TellArguments (field all item) [item.arguments.map (·.name)] item.events := by
  have hparts := (tellArguments_arguments all item.arguments).append
    ((tellArguments_typeUse all item.type).append
      (tellArguments_directiveUses all .fieldDefinition item.directives))
  rw [← List.append_assoc] at hparts
  exact hparts

/-- At a type the arguments of its fields may be repeated, besides those in what a walk meets. -/
theorem tellArguments_typeParts (declaration : TypeDeclaration σ) :
    TellArguments (typeParts all declaration)
      (declaration.body.fields.map fun field => field.arguments.map (·.name))
      declaration.events := by
  have hparts := ((tellArguments_typeNames all declaration.body.interfaces).append
    (tellArguments_directiveUses all (.ofKind declaration.kind) declaration.directives)).append
    (.flatMap (tellArguments_field all) declaration.body.fields) |>.append
    (.walk (tellArguments_inputValue all .inputFieldDefinition) declaration.body.inputFields)
    |>.append (tellArguments_typeNames all declaration.body.members) |>.append
    (.walk (fun value => tellArguments_directiveUses all .enumValue value.directives)
      declaration.body.values)
  simp only [List.append_nil, List.nil_append, ← List.map_eq_flatMap] at hparts
  exact hparts

end Check

section Definitions

/-- How the second pass goes through the members of all types. -/
def tellMembers : List (Member σ) → Member σ → List (Repeat σ) :=
  tellRepeated Member.key fun again => Repeat.of again.code (·.name.place) again

/-- How the second pass goes through the root operations of all schema blocks. -/
def tellOperations : List (RootOperation σ) → RootOperation σ → List (Repeat σ) :=
  tellRepeated (·.operation.value) (Repeat.of .duplicateRootOperation (·.operation.place))

/-- How the second pass goes through the schema definitions. -/
def tellSchemas (before : List σ) (place : σ) : List (Repeat σ) :=
  (before.head?.map (Repeat.of .multipleSchemas id place)).toList

/-- The members in a definition or extension belong to the type that it is about. -/
theorem TypeDeclaration.map_name_ownedMembers (declaration : TypeDeclaration σ) (name : String) :
    (declaration.ownedMembers.filter (·.owner = name)).map (·.name) =
      if declaration.name.value = name then declaration.body.memberNames else [] := by
  rw [ownedMembers, List.filter_map, List.map_map]
  split
  next hname => simp [hname, Function.comp_def]
  next hname => simp [hname, Function.comp_def]

/-- The members that a type got from definitions are those of all members that it owns. -/
theorem membersOf_eq [DecidableEq σ] (all : List (Definition σ)) (name : String)
    (definitions : List (Definition σ)) : membersOf all name definitions =
      ((definitions.flatMap (Definition.contributedMembers all)).filter
        (·.owner = name)).map (·.name) := by
  induction definitions with
  | nil => rfl
  | cons definition rest ih =>
    rw [List.flatMap_cons, List.filter_append, List.map_append, ← ih, Definition.contributedMembers,
      membersOf, membersOf]
    cases hgives : definition.contribution? all with
    | none => rw [List.filterMap_cons_none hgives]; rfl
    | some declaration =>
      rw [List.filterMap_cons_some hgives, Option.toList_some, List.flatMap_singleton,
        declaration.map_name_ownedMembers]
      by_cases hname : declaration.name.value = name <;> simp [hname]

/-- Members of one type are told as members of all types are. -/
theorem withEarlier_tellMembers {owner : String} {kind : TypeKind} {earlier : List (Member σ)}
    (names : List (Located σ String)) :
    withEarlier tellMembers earlier (names.map (⟨owner, kind, ·⟩)) =
      withEarlier (tellRepeated (·.value) (Repeat.of
        (if kind = .enum then .duplicateEnumValue else .duplicateField) (·.place)))
        ((earlier.filter (·.owner = owner)).map (·.name)) names := by
  induction names generalizing earlier with
  | nil => rfl
  | cons name names ih =>
    have hfind : (((earlier.filter (·.owner = owner)).map (·.name)).find?
        (·.value = name.value)) = (earlier.find? fun member =>
          member.key = (owner, name.value)).map (·.name) := by
      rw [List.find?_map, List.find?_filter]
      simp [Member.key]
    have hfirst : tellMembers earlier ⟨owner, kind, name⟩ = tellRepeated (·.value) (Repeat.of
        (if kind = .enum then .duplicateEnumValue else .duplicateField) (·.place))
        ((earlier.filter (·.owner = owner)).map (·.name)) name := by
      rw [tellRepeated, hfind, Option.map_map]
      rfl
    rw [List.map_cons, withEarlier, withEarlier, ih, hfirst]
    simp

/-- Repeated members are told against the members of the type so far. -/
theorem repeats_members [DecidableEq σ] (all before : List (Definition σ))
    (declaration : TypeDeclaration σ) :
    (Check.members all before declaration).filterMap Finding.repeat? =
      withEarlier tellMembers (before.flatMap (Definition.contributedMembers all))
        declaration.ownedMembers := by
  have hreport (item : Located σ String) (first : σ) :
      (Check.duplicateMember declaration.kind item first).repeat? = some
        ⟨if declaration.kind = .enum then .duplicateEnumValue else .duplicateField, item.place,
          some first⟩ := by
    cases declaration.kind <;> rfl
  rw [Check.members, repeats_repetitions hreport, TypeDeclaration.ownedMembers,
    withEarlier_tellMembers, membersOf_eq]

/-- What is found at a root operation tells of the operation against those before it. -/
theorem repeats_rootOperation {all : List (Definition σ)} (earlier : List (RootOperation σ))
    (root : RootOperation σ) :
    (Check.rootOperation all earlier root).filterMap Finding.repeat? =
      tellOperations earlier root := by
  have htype : (Check.rootType all root).filterMap Finding.repeat? = [] := by
    unfold Check.rootType
    split
    next => split <;> rfl
    next => split <;> rfl
  rw [Check.rootOperation, List.filterMap_append, htype, List.append_nil,
    repeats_repetitions (fun _ _ => rfl), withEarlier, withEarlier, List.append_nil, tellRepeated,
    List.find?_map, tellOperations, tellRepeated, Option.map_map]
  rfl

/-- What is found at a schema block tells of its operations and of the arguments in its
directives. -/
theorem repeats_schemaBlock (all earlier : List (Definition σ)) (block : SchemaBlock σ) :
    ((Check.schemaBlock all earlier block).filterMap Finding.repeat?).Perm
      (withEarlier tellOperations (earlier.flatMap Definition.operations) block.operations ++
        block.events.flatMap fun event => repeatedArguments event.argumentNames) := by
  have huses := Check.tellArguments_directiveUses all .schema block.directives
  have hreferences : (block.operations.map (Event.reference ·.type)).flatMap
      (fun event => repeatedArguments event.argumentNames) = ([] : List (Repeat σ)) := by
    rw [List.flatMap_map]
    exact List.flatMap_eq_nil_iff.mpr fun _ _ => rfl
  rw [Check.schemaBlock, List.filterMap_append, filterMap_withEarlier,
    withEarlier_congr repeats_rootOperation, SchemaBlock.events, List.flatMap_append, hreferences,
    List.append_nil]
  exact (huses.append_right _).trans List.perm_append_comm

/-- A schema definition is told against the first of those before it. -/
theorem repeats_duplicateSchema (before : List σ) (place : σ) :
    ((before.head?.map (Finding.duplicateSchema place)).toList).filterMap Finding.repeat? =
      tellSchemas before place := by
  cases before <;> rfl

/-- The members of a type definition that counts are told against those of the type so far, and
those of one that does not count are not told. -/
theorem repeats_contributedMembers [DecidableEq σ] (all before : List (Definition σ))
    (description : Option (Located σ String)) (declaration : TypeDeclaration σ) :
    (if isRegistered all declaration then Check.members all before declaration else []).filterMap
        Finding.repeat? =
      withEarlier tellMembers (before.flatMap (Definition.contributedMembers all))
        ((Definition.type description declaration).contributedMembers all) := by
  rw [Definition.contributedMembers, Definition.contribution?]
  split
  next => rw [repeats_members, Option.toList_some, List.flatMap_singleton]
  next => rfl

/-- What is found of the type that an extension is about tells of no repeat. -/
theorem repeats_extensionTarget (all : List (Definition σ)) (declaration : TypeDeclaration σ) :
    (Check.extensionTarget all declaration).filterMap Finding.repeat? = [] := by
  unfold Check.extensionTarget
  split
  next => rfl
  next => split <;> rfl

/-- What the second pass finds at a definition tells of it as a schema definition, of its
operations, of its members, and of the arguments in it. -/
theorem repeats_definition [DecidableEq σ] {all : List (Definition σ)}
    (before : List (Definition σ)) (definition : Definition σ) :
    ((Check.definition all before definition).filterMap Finding.repeat?).Perm
      (withEarlier tellSchemas (before.filterMap Definition.schemaPlace?)
          ([definition].filterMap Definition.schemaPlace?) ++
        (withEarlier tellOperations (before.flatMap Definition.operations)
            definition.operations ++
          (withEarlier tellMembers (before.flatMap (Definition.contributedMembers all))
              (definition.contributedMembers all) ++
            (definition.argumentLists.flatMap repeatedArguments ++
              definition.events.flatMap fun event =>
                repeatedArguments event.argumentNames)))) := by
  cases definition with
  | schema description block =>
    rw [Check.definition, List.filterMap_append, repeats_duplicateSchema]
    refine ((repeats_schemaBlock all before block).append_left _).trans (.of_eq ?_)
    simp [withEarlier, Definition.schemaPlace?, Definition.operations,
      Definition.contributedMembers, Definition.contribution?, Definition.argumentLists,
      Definition.events]
  | extendSchema block => exact repeats_schemaBlock all before block
  | type description declaration =>
    rw [Check.definition, List.filterMap_append, repeats_contributedMembers all before description]
    exact (Check.tellArguments_typeParts all declaration).append_left _
  | extendType declaration =>
    rw [Check.definition, List.filterMap_append, List.filterMap_append, repeats_extensionTarget,
      repeats_members, Definition.contributedMembers, Definition.contribution?,
      Option.toList_some, List.flatMap_singleton]
    exact (Check.tellArguments_typeParts all declaration).append_left _
  | directive description declaration =>
    exact Check.tellArguments_arguments all declaration.arguments

/-- Schema definitions are told against the first. -/
theorem withEarlier_tellSchemas (places : List σ) :
    withEarlier tellSchemas [] places = againstFirst (Repeat.of .multipleSchemas id) places := by
  cases places with
  | nil => rfl
  | cons first rest =>
    rw [withEarlier, againstFirst, List.nil_append]
    exact withEarlier_eq_map fun _ _ _ => rfl

/-- Arguments are repeated in fields, in directive definitions and in directive applications. -/
theorem repeatedArguments_perm (document : Document σ) :
    (document.definitions.flatMap fun definition =>
      definition.argumentLists.flatMap repeatedArguments ++
        definition.events.flatMap fun event => repeatedArguments event.argumentNames).Perm
      (document.argumentLists.flatMap repeatedArguments) := by
  refine (List.flatMap_append_perm _ _ _).symm.trans ?_
  rw [Document.argumentLists, ← List.append_assoc, List.flatMap_append]
  refine .append ?_ ?_
  · rw [← List.flatMap_assoc]
    exact (argumentLists_perm document.definitions).flatMap_right _
  · rw [← List.flatMap_assoc]
    refine (document.events_perm_occurrences.flatMap_right _).trans (.of_eq ?_)
    have hannotations : (document.annotations.map Event.typeUse).flatMap
        (fun event => repeatedArguments event.argumentNames) = [] := by
      rw [List.flatMap_map]
      exact List.flatMap_eq_nil_iff.mpr fun _ _ => rfl
    have hreferences : (document.references.map Event.reference).flatMap
        (fun event => repeatedArguments event.argumentNames) = [] := by
      rw [List.flatMap_map]
      exact List.flatMap_eq_nil_iff.mpr fun _ _ => rfl
    rw [Document.occurrences, List.flatMap_append, List.flatMap_append, hannotations, hreferences,
      List.append_nil, List.append_nil, List.flatMap_map, List.flatMap_map]
    rfl

/-- The second pass tells of repeated schema definitions, operations, members and arguments. -/
theorem repeats_definitions [DecidableEq σ] {document : Document σ}
    (hapart : ((document.definitions.filterMap Definition.name?).map (·.place)).Nodup) :
    ((withEarlier (Check.definition document.definitions) [] document.definitions).filterMap
      Finding.repeat?).Perm
      (againstFirst (Repeat.of .multipleSchemas id)
          (document.definitions.filterMap Definition.schemaPlace?) ++
        (repeatsIn (·.operation.value) (fun _ => .duplicateRootOperation) (·.operation.place)
            document.operations ++
          (repeatsIn Member.key Member.code (·.name.place) document.members ++
            document.argumentLists.flatMap repeatedArguments))) := by
  rw [filterMap_withEarlier, Document.members_eq hapart]
  refine (withEarlier_perm repeats_definition).trans ?_
  refine (withEarlier_append_perm _ _ _ _).trans (.append ?_ ?_)
  · exact .of_eq ((withEarlier_filterMap (fun _ _ => rfl) _).trans (withEarlier_tellSchemas _))
  refine (withEarlier_append_perm _ _ _ _).trans (.append ?_ ?_)
  · exact (List.Perm.of_eq (withEarlier_flatMap (fun _ _ => rfl) _)).trans
      (tellRepeated_perm _ _ _)
  refine (withEarlier_append_perm _ _ _ _).trans (.append ?_ ?_)
  · exact (List.Perm.of_eq (withEarlier_flatMap (fun _ _ => rfl) _)).trans
      (tellRepeated_perm _ _ _)
  · rw [withEarlier_const]
    exact repeatedArguments_perm document

/-- Where the names of definitions stand in different places, what is found of things given again
is, up to the order, all that a document repeats. -/
theorem Document.repeats_findings [DecidableEq σ] {document : Document σ}
    (hapart : ((document.definitions.filterMap Definition.name?).map (·.place)).Nodup) :
    (document.findings.filterMap Finding.repeat?).Perm document.repeats := by
  rw [findings, List.filterMap_append, repeats]
  simpa only [List.append_assoc] using
    (repeats_registrations document).append (repeats_definitions hapart)

end Definitions

/-- Whether a diagnostic is about something that is given again. -/
def Diagnostic.isAboutRepeat (problem : Diagnostic σ) : Bool :=
  problem.code.any fun code =>
    ["E201", "E202", "E203", "E204", "E206", "E207", "E208"].contains code.text

/-- How a repeat is pointed at: where something is given again, and where it was given first. -/
def Repeat.pointers (spans : Array Span) (repeated : Repeat Extent) :
    Option String × List (Span × Bool) :=
  (some repeated.code.text, (repeated.again.locate spans, true) ::
    repeated.first?.toList.map fun first => (first.locate spans, false))

namespace SignificantTokens

variable {source : SignificantTokens}

/-- The diagnostics about repeats point at what the findings tell of them. -/
theorem map_pointers_repeats (findings : List (Finding Extent)) :
    ((findings.map fun finding => source.locate finding.diagnostic).filter
        (·.isAboutRepeat)).map (·.pointers) =
      (findings.filterMap Finding.repeat?).map (Repeat.pointers source.spans) := by
  induction findings with
  | nil => rfl
  | cons finding rest ih =>
    rw [List.map_cons, List.filter_cons, List.filterMap_cons]
    cases finding
    case rootNotObject => exact ih
    case rootBuiltIn => exact ih
    case unknownType => exact ih
    case undefinedExtension => exact ih
    case extensionMismatch => exact ih
    case unknownDirective => exact ih
    case misplacedDirective => exact ih
    all_goals exact congrArg (List.cons _) ih

/-- In a document that is read from a text, a type definition is registered exactly if it does not
clash with what is built in and no earlier one is registered under its name. -/
theorem isRegistered_of_document {text : String} {document : Document Extent}
    (hsource : ofSource text = .ok source) (hdocument : source.document = .ok document)
    {before after : List (Definition Extent)} {description : Option (Located Extent String)}
    {declaration : TypeDeclaration Extent}
    (he : document.definitions = before ++ .type description declaration :: after) :
    isRegistered document.definitions declaration =
      ((declaredType? before declaration.name.value).isNone && !declaration.clashes) := by
  have hapart := nodup_nameExtents_of_document hsource hdocument
  rw [he] at hapart ⊢
  exact isRegistered_eq hapart

/-- Of a document that is read from a text, the diagnostics about things given again are, up to the
order, one for each repeat: it points at the repeat, and at the first occurrence unless that is
built in. The first occurrence ends before the repeat starts. -/
theorem emitted_repeats {text : String} {document : Document Extent}
    (hsource : ofSource text = .ok source) (hdocument : source.document = .ok document) :
    (((source.emitted document).filter (·.isAboutRepeat)).map (·.pointers)).Perm
        (document.repeats.map (Repeat.pointers source.spans)) ∧
      ∀ repeated ∈ document.repeats, ∀ first ∈ repeated.first?,
        (first.locate source.spans).stop ≤ (repeated.again.locate source.spans).start := by
  constructor
  · rw [emitted_eq_map, map_pointers_repeats]
    exact (Document.repeats_findings (nodup_nameExtents_of_document hsource hdocument)).map _
  · exact Document.follows_repeats fun places hchosen =>
      (apart_of_document hsource hdocument hchosen).2

/-- A clash, a type defined again behind the one that counts, a root operation of two blocks, a
field that an extension gives first, and an argument: these five are pointed at, and nothing
else. -/
theorem emitted_repeats_extension :
    let text := "extend type A \x7b x(a: Int, a: Int): Int \x7d type A \x7b x: Int \x7d " ++
      "type Int scalar Int scalar Int schema \x7b query: A \x7d extend schema \x7b query: A \x7d"
    let pointers := [(some "E201", [(.between 64 67, true)]),
      (some "E201", [(.between 86 89, true), (.between 75 78, false)]),
      (some "E208", [(.between 126 131, true), (.between 99 104, false)]),
      (some "E202", [(.between 50 51, true), (.between 16 17, false)]),
      (some "E203", [(.between 26 27, true), (.between 18 19, false)])]
    ∃ source document, ofSource text = .ok source ∧ source.document = .ok document ∧
      (((source.emitted document).filter (·.isAboutRepeat)).map (·.pointers)).Perm pointers ∧
      ∀ repeated ∈ document.repeats, ∀ first ∈ repeated.first?,
        (first.locate source.spans).stop ≤ (repeated.again.locate source.spans).start := by
  intro text pointers
  have hpointers : ((ofSource text).toOption.bind fun source =>
      source.document.toOption.map fun document =>
        document.repeats.map (Repeat.pointers source.spans)) = some pointers := by
    decide +kernel
  obtain ⟨source, document, hsource, hdocument, hpointers⟩ := exists_document_of_found hpointers
  have hrepeats := emitted_repeats hsource hdocument
  rw [hpointers] at hrepeats
  exact ⟨source, document, hsource, hdocument, hrepeats⟩

end SignificantTokens

end SdlGraph
