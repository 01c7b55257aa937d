import SdlGraph.Proofs.Document.Placement
import SdlGraph.Validation.Check

/-!
# What findings point at

A finding points at places of the document in which it is found: at those of the construct that is
looked at, and at those of what an earlier construct or a definition of the same name has.
-/

namespace SdlGraph

variable {σ : Type} {places others : List σ}

/-- A finding points at some of these places and at no other. -/
def Finding.PointsInto (finding : Finding σ) (places : List σ) : Prop :=
  ∀ label ∈ finding.labels, label.place ∈ places

/-- All findings point at some of these places. -/
def PointInto (findings : List (Finding σ)) (places : List σ) : Prop :=
  ∀ finding ∈ findings, finding.PointsInto places

namespace PointInto

variable {α : Type} {findings findings' : List (Finding σ)}

theorem mono (h : PointInto findings places) (hsub : places ⊆ others) :
    PointInto findings others :=
  fun finding hf label hl => hsub (h finding hf label hl)

theorem nil : PointInto [] places := List.forall_mem_nil _

/-- A single finding with one label. -/
theorem one {finding : Finding σ} {place : σ} {message : String}
    (h : finding.labels = [.primary place message]) (hplace : place ∈ places) :
    PointInto [finding] places := by
  refine List.forall_mem_singleton.mpr fun label hl => ?_
  rw [h, List.mem_singleton] at hl
  rwa [hl]

/-- A single finding with a second label. -/
theorem two {finding : Finding σ} {place first : σ} {message context : String}
    (h : finding.labels = [.primary place message, .secondary first context])
    (hplace : place ∈ places) (hfirst : first ∈ places) : PointInto [finding] places := by
  refine List.forall_mem_singleton.mpr fun label hl => ?_
  rw [h, List.mem_cons, List.mem_singleton] at hl
  rcases hl with rfl | rfl
  · exact hplace
  · exact hfirst

theorem append (h : PointInto findings places) (h' : PointInto findings' places) :
    PointInto (findings ++ findings') places :=
  List.forall_mem_append.mpr ⟨h, h'⟩

/-- What is found at items points at places that the items have. -/
theorem flatMap {find : α → List (Finding σ)} {items : List α} {placesOf : α → List σ}
    (h : ∀ item, PointInto (find item) (placesOf item)) :
    PointInto (items.flatMap find) (items.flatMap placesOf) := by
  intro finding hf label hl
  obtain ⟨item, hi, hfinding⟩ := List.mem_flatMap.mp hf
  exact List.mem_flatMap.mpr ⟨item, hi, h item finding hfinding label hl⟩

/-- What is found at items and those before them points at places that they all have. -/
theorem withEarlier {find : List α → α → List (Finding σ)} {earlier items : List α}
    (h : ∀ before item, before ⊆ earlier ++ items → item ∈ items →
      PointInto (find before item) places) :
    PointInto (SdlGraph.withEarlier find earlier items) places := by
  induction items generalizing earlier with
  | nil => exact nil
  | cons item items ih =>
    refine append (h earlier item (List.subset_append_left _ _) List.mem_cons_self) (ih ?_)
    intro before later hbefore hlater
    rw [List.append_assoc, List.singleton_append] at hbefore
    exact h before later hbefore (List.mem_cons_of_mem _ hlater)

/-- A repetition points at the item and at an item with the same value before it. -/
theorem repetitions [BEq α] {report : Located σ α → σ → Finding σ}
    {earlier items : List (Located σ α)} {message context : String}
    (hlabels : ∀ item first, (report item first).labels =
      [.primary item.place message, .secondary first context])
    (hearlier : ∀ item ∈ earlier, item.place ∈ places)
    (hitems : ∀ item ∈ items, item.place ∈ places) :
    PointInto (SdlGraph.repetitions report earlier items) places := by
  refine withEarlier fun before item hbefore hitem => ?_
  cases hfirst : firstPlace? before item.value with
  | none => exact nil
  | some first =>
    obtain ⟨found, hfound, rfl⟩ := Option.map_eq_some_iff.mp hfirst
    have hall := List.forall_mem_append.mpr ⟨hearlier, hitems⟩
    exact two (hlabels item found.place) (hitems item hitem)
      (hall found (hbefore (List.mem_of_find?_eq_some hfound)))

end PointInto

namespace Check

variable {all : List (Definition σ)}

theorem pointInto_typeName (name : Located σ String) :
    PointInto (typeName all name) [name.place] := by
  unfold typeName
  split
  next => exact .nil
  next => exact .one rfl (List.mem_singleton_self _)

theorem pointInto_typeUse (written : TypeUse σ) :
    PointInto (typeUse all written) written.places :=
  (pointInto_typeName _).mono (List.subset_cons_self _ _)

/-- What is found at a directive application points at the whole of it or at its arguments. -/
theorem pointInto_directiveUse (location : DirectiveLocation) (applied : DirectiveUse σ) :
    PointInto (directiveUse all location applied) applied.places := by
  refine .append ?_ (.repetitions (fun _ _ => rfl) (List.forall_mem_nil _) ?_)
  · split
    next => exact .one rfl List.mem_cons_self
    next =>
      split
      next => exact .nil
      next => exact .one rfl List.mem_cons_self
  · intro name hname
    obtain ⟨argument, ha, rfl⟩ := List.mem_map.mp hname
    refine List.mem_cons_of_mem _ (List.mem_cons_of_mem _ (List.mem_flatMap.mpr ⟨argument, ha, ?_⟩))
    exact List.mem_cons_self

theorem pointInto_inputValue (location : DirectiveLocation) (input : InputValue σ) :
    PointInto (inputValue all location input) input.places := by
  refine .append ((pointInto_typeUse _).mono fun place hp => ?_)
    ((PointInto.flatMap (pointInto_directiveUse location)).mono fun place hp => ?_)
  · simp [InputValue.places, hp]
  · simp only [InputValue.places, List.mem_append, List.mem_cons]
    exact .inr (.inr (.inr (.inr hp)))

/-- The names of input values are places of them. -/
theorem name_mem_places {inputs : List (InputValue σ)} :
    ∀ name ∈ inputs.map (·.name), name.place ∈ inputs.flatMap InputValue.places := by
  intro name hname
  obtain ⟨input, hi, rfl⟩ := List.mem_map.mp hname
  exact List.mem_flatMap.mpr ⟨input, hi, by simp [InputValue.places]⟩

theorem pointInto_arguments (arguments : List (InputValue σ)) :
    PointInto (Check.arguments all arguments) (arguments.flatMap InputValue.places) :=
  .append (.repetitions (fun _ _ => rfl) (List.forall_mem_nil _) name_mem_places)
    (.flatMap (pointInto_inputValue .argumentDefinition))

theorem pointInto_field (field : Field σ) : PointInto (Check.field all field) field.places := by
  refine .append (.append ((pointInto_arguments _).mono fun place hp => ?_)
    ((pointInto_typeUse _).mono fun place hp => ?_))
    ((PointInto.flatMap (pointInto_directiveUse .fieldDefinition)).mono fun place hp => ?_)
  · simp only [Field.places, List.mem_append, List.mem_cons]
    exact .inr (.inr (.inl hp))
  · simp [Field.places, hp]
  · simp only [Field.places, List.mem_append, List.mem_cons]
    exact .inr (.inr (.inr (.inr hp)))

theorem pointInto_typeNames (names : List (Located σ String)) :
    PointInto (names.flatMap (typeName all)) (names.map (·.place)) := by
  rw [List.map_eq_flatMap]
  exact .flatMap pointInto_typeName

theorem pointInto_enumValue (value : EnumValue σ) :
    PointInto (value.directives.flatMap (directiveUse all .enumValue)) value.places := by
  refine (PointInto.flatMap (pointInto_directiveUse .enumValue)).mono fun place hp => ?_
  exact List.mem_append_right _ (List.mem_cons_of_mem _ hp)

/-- What is found at the parts of a type points at places behind its name. -/
theorem pointInto_typeParts (declaration : TypeDeclaration σ) :
    PointInto (typeParts all declaration) (declaration.body.places declaration.directives) := by
  refine .append (.append (.append (.append (.append ?_ ?_) ?_) ?_) ?_) ?_
  · exact (pointInto_typeNames _).mono fun place hp => by simp [TypeBody.places, hp]
  · refine (PointInto.flatMap (pointInto_directiveUse _)).mono fun place hp => ?_
    simp only [TypeBody.places, List.mem_append]
    exact .inr (.inl hp)
  · refine (PointInto.flatMap pointInto_field).mono fun place hp => ?_
    simp only [TypeBody.places, List.mem_append]
    exact .inr (.inr (.inl hp))
  · refine (PointInto.flatMap (pointInto_inputValue _)).mono fun place hp => ?_
    simp only [TypeBody.places, List.mem_append]
    exact .inr (.inr (.inr (.inl hp)))
  · exact (pointInto_typeNames _).mono fun place hp => by simp [TypeBody.places, hp]
  · refine (PointInto.flatMap pointInto_enumValue).mono fun place hp => ?_
    simp only [TypeBody.places, List.mem_append]
    exact .inr (.inr (.inr (.inr (.inr hp))))

/-- The names of the members of a type are places behind its name. -/
theorem memberName_mem_places {body : TypeBody σ} {uses : List (DirectiveUse σ)} :
    ∀ name ∈ body.memberNames, name.place ∈ body.places uses := by
  intro name hname
  simp only [TypeBody.memberNames, List.mem_append, List.mem_map] at hname
  simp only [TypeBody.places, List.mem_append, List.mem_flatMap]
  rcases hname with (⟨field, hf, rfl⟩ | ⟨field, hf, rfl⟩) | ⟨value, hv, rfl⟩
  · exact .inr (.inr (.inl ⟨field, hf, by simp [Field.places]⟩))
  · exact .inr (.inr (.inr (.inl ⟨field, hf, by simp [InputValue.places]⟩)))
  · exact .inr (.inr (.inr (.inr (.inr ⟨value, hv, by simp [EnumValue.places]⟩))))

/-- The members that definitions give to a type stand in these definitions. -/
theorem membersOf_mem_places [DecidableEq σ] {name : String} {definitions : List (Definition σ)} :
    ∀ member ∈ membersOf all name definitions,
      member.place ∈ definitions.flatMap Definition.places := by
  intro member hm
  obtain ⟨declaration, hdeclaration, hmember⟩ := List.mem_flatMap.mp hm
  obtain ⟨definition, hd, hgives⟩ := List.mem_filterMap.mp (List.mem_filter.mp hdeclaration).1
  refine List.mem_flatMap.mpr ⟨definition, hd, ?_⟩
  have hplace : member.place ∈ declaration.places :=
    List.mem_cons_of_mem _ (List.mem_cons_of_mem _ (memberName_mem_places member hmember))
  cases definition with
  | type description written =>
    obtain ⟨-, ⟨⟩⟩ := Option.ite_none_right_eq_some.mp hgives
    exact List.mem_append_right _ hplace
  | extendType written =>
    cases hgives
    exact hplace
  | _ => cases hgives

/-- The type that counts for a name stands in its definition. -/
theorem declaredType?_mem_places {definitions : List (Definition σ)} {name : String}
    {declaration : TypeDeclaration σ} (h : declaredType? definitions name = some declaration) :
    declaration.name.place ∈ definitions.flatMap Definition.places := by
  obtain ⟨definition, hd, hsound⟩ := List.mem_filterMap.mp (List.mem_of_find?_eq_some h)
  refine List.mem_flatMap.mpr ⟨definition, hd, ?_⟩
  cases definition with
  | type description written =>
    simp only [Definition.soundType?, Option.ite_none_left_eq_some, Option.some.injEq] at hsound
    rw [← hsound.2]
    simp [Definition.places, TypeDeclaration.places]
  | _ => cases hsound

/-- The directive that counts for a name stands in its definition. -/
theorem declaredDirective?_mem_places {definitions : List (Definition σ)} {name : String}
    {declaration : DirectiveDeclaration σ}
    (h : declaredDirective? definitions name = some declaration) :
    declaration.name.place ∈ definitions.flatMap Definition.places := by
  obtain ⟨definition, hd, hsound⟩ := List.mem_filterMap.mp (List.mem_of_find?_eq_some h)
  refine List.mem_flatMap.mpr ⟨definition, hd, ?_⟩
  cases definition with
  | directive description written =>
    simp only [Definition.soundDirective?, Option.ite_none_left_eq_some, Option.some.injEq]
      at hsound
    rw [← hsound.2]
    simp [Definition.places, DirectiveDeclaration.places]
  | _ => cases hsound

/-- The operations that definitions name stand in these definitions. -/
theorem operation_mem_places {definitions : List (Definition σ)} :
    ∀ root ∈ definitions.flatMap Definition.operations,
      root.operation.place ∈ definitions.flatMap Definition.places := by
  intro root hr
  obtain ⟨definition, hd, hroot⟩ := List.mem_flatMap.mp hr
  refine List.mem_flatMap.mpr ⟨definition, hd, ?_⟩
  have hmem {block : SchemaBlock σ} (hb : root ∈ block.operations) :
      root.operation.place ∈ block.places :=
    List.mem_cons_of_mem _ (List.mem_append_right _
      (List.mem_flatMap.mpr ⟨root, hb, List.mem_cons_self⟩))
  cases definition with
  | schema description block => exact List.mem_append_right _ (hmem hroot)
  | extendSchema block => exact hmem hroot
  | _ => cases hroot

/-- Schema definitions are places of the definitions. -/
theorem schemaPlace?_mem_places {definitions : List (Definition σ)} :
    ∀ place ∈ definitions.filterMap Definition.schemaPlace?,
      place ∈ definitions.flatMap Definition.places := by
  intro place hp
  obtain ⟨definition, hd, hplace⟩ := List.mem_filterMap.mp hp
  refine List.mem_flatMap.mpr ⟨definition, hd, ?_⟩
  cases definition with
  | schema description block =>
    cases hplace
    exact List.mem_append_right _ List.mem_cons_self
  | _ => cases hplace

/-- An extension that does not fit points at its name, and at the type that it does not fit. -/
theorem pointInto_extensionTarget {extension : TypeDeclaration σ}
    (hname : extension.name.place ∈ all.flatMap Definition.places) :
    PointInto (extensionTarget all extension) (all.flatMap Definition.places) := by
  unfold extensionTarget
  split
  next => exact .one rfl hname
  next defined hdefined =>
    split
    next => exact .nil
    next => exact .two rfl hname (declaredType?_mem_places hdefined)

section

variable {earlier : List (Definition σ)} (hearlier : earlier ⊆ all)

include hearlier

theorem places_subset_of_earlier :
    earlier.flatMap Definition.places ⊆ all.flatMap Definition.places := by
  intro place hp
  obtain ⟨definition, hd, hplace⟩ := List.mem_flatMap.mp hp
  exact List.mem_flatMap.mpr ⟨definition, hearlier hd, hplace⟩

/-- A repeated member points at itself and at the first one, which may be in another definition. -/
theorem pointInto_members [DecidableEq σ] {declaration : TypeDeclaration σ}
    (hplaces : declaration.places ⊆ all.flatMap Definition.places) :
    PointInto (members all earlier declaration) (all.flatMap Definition.places) := by
  have hlabels (item : Located σ String) (first : σ) :
      (duplicateMember declaration.kind item first).labels =
        [.primary item.place "duplicate definition", .secondary first "first defined here"] := by
    cases declaration.kind <;> rfl
  refine .repetitions hlabels (fun member hm => ?_) fun member hm => ?_
  · exact places_subset_of_earlier hearlier (membersOf_mem_places member hm)
  · exact hplaces (List.mem_cons_of_mem _ (List.mem_cons_of_mem _
      (memberName_mem_places member hm)))

/-- What is found at root operations points at them, at those named before, and at the types that
serve them. -/
theorem pointInto_rootOperations {operations : List (RootOperation σ)}
    (hplaces : operations.flatMap RootOperation.places ⊆ all.flatMap Definition.places) :
    PointInto (SdlGraph.withEarlier (rootOperation all)
      (earlier.flatMap Definition.operations) operations) (all.flatMap Definition.places) := by
  have hown {root : RootOperation σ} (hr : root ∈ operations) :
      root.operation.place ∈ all.flatMap Definition.places ∧
        root.type.place ∈ all.flatMap Definition.places :=
    ⟨hplaces (List.mem_flatMap.mpr ⟨root, hr, List.mem_cons_self⟩),
      hplaces (List.mem_flatMap.mpr ⟨root, hr, List.mem_cons_of_mem _ List.mem_cons_self⟩)⟩
  refine .withEarlier fun before root hbefore hr => .append (.repetitions (fun _ _ => rfl) ?_ ?_) ?_
  · intro operation ho
    obtain ⟨other, hother, rfl⟩ := List.mem_map.mp ho
    rcases List.mem_append.mp (hbefore hother) with hmem | hmem
    · exact places_subset_of_earlier hearlier (operation_mem_places other hmem)
    · exact (hown hmem).1
  · exact List.forall_mem_singleton.mpr (hown hr).1
  · unfold rootType
    split
    next defined hdefined =>
      split
      next => exact .nil
      next => exact .two rfl (hown hr).2 (declaredType?_mem_places hdefined)
    next =>
      split
      next => exact .one rfl (hown hr).2
      next => exact .one rfl (hown hr).2

theorem pointInto_schemaBlock {block : SchemaBlock σ}
    (hplaces : block.places ⊆ all.flatMap Definition.places) :
    PointInto (schemaBlock all earlier block) (all.flatMap Definition.places) := by
  obtain ⟨hdirectives, hoperations⟩ := List.append_subset.mp (List.cons_subset.mp hplaces).2
  exact .append ((PointInto.flatMap (pointInto_directiveUse .schema)).mono hdirectives)
    (pointInto_rootOperations hearlier hoperations)

/-- What the first pass finds at a definition points at names of definitions. -/
theorem pointInto_registration {definition : Definition σ} (hd : definition ∈ all) :
    PointInto (registration earlier definition) (all.flatMap Definition.places) := by
  have hplaces : definition.places ⊆ all.flatMap Definition.places :=
    fun place hp => List.mem_flatMap.mpr ⟨definition, hd, hp⟩
  have hsub := places_subset_of_earlier hearlier
  cases definition with
  | type description declaration =>
    have hname : declaration.name.place ∈ all.flatMap Definition.places :=
      hplaces (by simp [Definition.places, TypeDeclaration.places])
    simp only [registration]
    split
    next first hfirst => exact .two rfl hname (hsub (declaredType?_mem_places hfirst))
    next =>
      split
      next => exact .one rfl hname
      next => exact .nil
  | directive description declaration =>
    have hname : declaration.name.place ∈ all.flatMap Definition.places :=
      hplaces (by simp [Definition.places, DirectiveDeclaration.places])
    simp only [registration]
    split
    next first hfirst => exact .two rfl hname (hsub (declaredDirective?_mem_places hfirst))
    next =>
      split
      next => exact .one rfl hname
      next => exact .nil
  | _ => exact .nil

/-- What the second pass finds at a definition points at places of the document. -/
theorem pointInto_definition [DecidableEq σ] {definition : Definition σ} (hd : definition ∈ all) :
    PointInto (Check.definition all earlier definition) (all.flatMap Definition.places) := by
  have hplaces : definition.places ⊆ all.flatMap Definition.places :=
    fun place hp => List.mem_flatMap.mpr ⟨definition, hd, hp⟩
  have hparts {declaration : TypeDeclaration σ}
      (h : declaration.places ⊆ all.flatMap Definition.places) :
      PointInto (typeParts all declaration) (all.flatMap Definition.places) :=
    (pointInto_typeParts declaration).mono (List.cons_subset.mp (List.cons_subset.mp h).2).2
  cases definition with
  | schema description block =>
    have hblock := (List.append_subset.mp hplaces).2
    refine .append ?_ (pointInto_schemaBlock hearlier hblock)
    cases hschema : (earlier.filterMap Definition.schemaPlace?).head? with
    | none => exact .nil
    | some first =>
      have hfirst := schemaPlace?_mem_places first (List.mem_of_mem_head? hschema)
      exact .two rfl (hblock List.mem_cons_self) (places_subset_of_earlier hearlier hfirst)
  | extendSchema block => exact pointInto_schemaBlock hearlier hplaces
  | type description declaration =>
    have hdeclaration := (List.append_subset.mp hplaces).2
    refine .append ?_ (hparts hdeclaration)
    split
    next => exact pointInto_members hearlier hdeclaration
    next => exact .nil
  | extendType declaration =>
    have hname : declaration.name.place ∈ all.flatMap Definition.places :=
      hplaces (List.mem_cons_of_mem _ List.mem_cons_self)
    exact .append (.append (pointInto_extensionTarget hname) (pointInto_members hearlier hplaces))
      (hparts hplaces)
  | directive description declaration =>
    refine (pointInto_arguments declaration.arguments).mono fun place hp => hplaces ?_
    simp only [Definition.places, DirectiveDeclaration.places, List.mem_append, List.mem_cons]
    exact .inr (.inr (.inr (.inl hp)))

end

end Check

/-- All findings of a document point at places of the document. -/
theorem Document.pointInto_findings [DecidableEq σ] (document : Document σ) :
    PointInto document.findings document.places :=
  .append
    (.withEarlier fun _ _ hbefore hd => Check.pointInto_registration hbefore hd)
    (.withEarlier fun _ _ hbefore hd => Check.pointInto_definition hbefore hd)

end SdlGraph
