import SdlGraph.Catalog.Build
import SdlGraph.Proofs.Validation.Registration

/-!
# Checking accepts exactly the sound documents

On a document with sound names, what the second pass says about a definition splits into what
depends on the earlier definitions (repeated members, root operations and schema definitions) and
what its own parts are found to be. Read over the whole document, these are the remaining conditions
of a sound document, so checking succeeds exactly on the sound ones.
-/

namespace SdlGraph

variable {σ : Type}

/-- What the second pass finds at a definition, its repetitions of earlier parts left out. -/
def Check.parts (all : List (Definition σ)) : Definition σ → List (Finding σ)
  | .schema _ block => block.directives.flatMap (directiveUse all .schema) ++
      block.operations.flatMap (rootType all)
  | .extendSchema block => block.directives.flatMap (directiveUse all .schema) ++
      block.operations.flatMap (rootType all)
  | .type _ declaration => typeParts all declaration
  | .extendType declaration => extensionTarget all declaration ++ typeParts all declaration
  | .directive _ declaration => arguments all declaration.arguments

/-- Root operations are fine exactly when their kinds are new and distinct and their types serve. -/
theorem Check.rootOperations_eq_nil_iff {all : List (Definition σ)}
    {earlier operations : List (RootOperation σ)} :
    withEarlier (rootOperation all) earlier operations = [] ↔
      ((operations.map (·.operation.value)).Nodup ∧
        ∀ kind ∈ operations.map (·.operation.value),
          kind ∉ earlier.map (·.operation.value)) ∧
      operations.flatMap (rootType all) = [] := by
  rw [withEarlier_eq_nil_iff]
  induction operations using List.reverseRecOn with
  | nil => simp [EachAfter.nil]
  | append_singleton operations last ih =>
    rw [EachAfter.concat_iff, ih, rootOperation, List.append_eq_nil_iff, repetitions_eq_nil_iff]
    simp only [List.map_append, List.map_cons, List.map_nil, List.map_map, List.mem_append,
      List.mem_singleton, List.nodup_append', List.nodup_singleton, List.disjoint_singleton,
      List.flatMap_append, List.flatMap_cons, List.flatMap_nil, List.append_nil,
      List.append_eq_nil_iff, true_and, forall_eq, not_or, Function.comp_def]
    constructor
    · intro ⟨⟨⟨hnodup, hnew⟩, hroots⟩, ⟨hearlier, hlast⟩, hroot⟩
      refine ⟨⟨⟨hnodup, hlast⟩, ?_⟩, hroots, hroot⟩
      rintro kind (hk | rfl)
      · exact hnew kind hk
      · exact hearlier
    · intro ⟨⟨⟨hnodup, hlast⟩, hnew⟩, hroots, hroot⟩
      exact ⟨⟨⟨hnodup, fun kind hk => hnew kind (.inl hk)⟩, hroots⟩, ⟨hnew _ (.inr rfl), hlast⟩,
        hroot⟩

/-- A schema block is fine exactly when it repeats no root operation and its own parts are fine. -/
theorem Check.schemaBlock_eq_nil_iff {all before : List (Definition σ)} {block : SchemaBlock σ} :
    schemaBlock all before block = [] ↔
      ((block.operations.map (·.operation.value)).Nodup ∧
        ∀ kind ∈ block.operations.map (·.operation.value),
          kind ∉ (before.flatMap Definition.operations).map (·.operation.value)) ∧
      parts all (.extendSchema block) = [] := by
  rw [schemaBlock, List.append_eq_nil_iff, Check.rootOperations_eq_nil_iff, parts,
    List.append_eq_nil_iff]
  exact and_left_comm

/-- The names of the members that definitions and extensions in a list give to a type. -/
theorem Definition.map_memberNames (name : String) (definitions : List (Definition σ)) :
    (((definitions.filterMap typeDeclaration?).filter (·.name.value == name)).flatMap
      (·.body.memberNames)).map (·.value) = definitions.flatMap (memberNames name) := by
  induction definitions with
  | nil => rfl
  | cons definition rest ih =>
    rw [List.flatMap_cons, ← ih, memberNames]
    cases hdeclaration : definition.typeDeclaration? with
    | none => rw [List.filterMap_cons_none hdeclaration, List.nil_append]
    | some declaration =>
      rw [List.filterMap_cons_some hdeclaration]
      by_cases hname : declaration.name.value = name <;> simp [hname]

/-- The members of a definition are new exactly when its declaration, if it has one, repeats nothing
that earlier declarations gave to the same type. -/
theorem Definition.members_new_iff {before : List (Definition σ)} {item : Definition σ}
    {declaration : TypeDeclaration σ} (hitem : item.typeDeclaration? = some declaration) :
    (∀ name, (item.memberNames name).Nodup ∧
      ∀ member ∈ item.memberNames name, member ∉ before.flatMap (Definition.memberNames name)) ↔
      (declaration.body.memberNames.map (·.value)).Nodup ∧
        ∀ member ∈ declaration.body.memberNames.map (·.value),
          member ∉ before.flatMap (Definition.memberNames declaration.name.value) := by
  constructor
  · intro h
    simpa [Definition.memberNames, hitem] using h declaration.name.value
  · intro h name
    by_cases hn : declaration.name.value = name
    · subst hn
      simpa [Definition.memberNames, hitem] using h
    · simp [Definition.memberNames, hitem, hn]

/-- At most one item has a value exactly when no item has one after another that has. -/
theorem length_filterMap_le_one_iff {α β : Type} {value? : α → Option β} {items : List α} :
    (items.filterMap value?).length ≤ 1 ↔
      EachAfter (fun before item => (value? item).isSome → before.filterMap value? = []) items := by
  induction items using List.reverseRecOn with
  | nil => simp [EachAfter.nil]
  | append_singleton items last ih =>
    rw [EachAfter.concat_iff, ← ih, List.filterMap_append]
    cases h : value? last with
    | none => simp [h]
    | some value =>
      rw [← List.length_eq_zero_iff]
      simp only [List.filterMap_cons, h, List.filterMap_nil, List.length_append,
        List.length_singleton, Option.isSome_some, forall_const]
      omega

namespace Document

variable {document : Document σ} (hnames : document.NamesSound)

include hnames

/-- The members that came before a definition of a document with sound names. -/
theorem NamesSound.map_membersOf_before [DecidableEq σ] {before after : List (Definition σ)}
    {item : Definition σ} (he : document.definitions = before ++ item :: after) (name : String) :
    (membersOf document.definitions name before).map (·.value) =
      before.flatMap (Definition.memberNames name) := by
  have hall : before.filterMap (Definition.contribution? document.definitions) =
      before.filterMap Definition.typeDeclaration? :=
    List.filterMap_congr fun definition hd =>
      hnames.contribution?_eq (he ▸ List.mem_append_left _ hd)
  rw [membersOf, hall, Definition.map_memberNames]

/-- On sound names, a definition repeats no member exactly when its members are new. -/
theorem NamesSound.members_eq_nil_iff [DecidableEq σ] {before after : List (Definition σ)}
    {item : Definition σ} {declaration : TypeDeclaration σ}
    (he : document.definitions = before ++ item :: after)
    (hitem : item.typeDeclaration? = some declaration) :
    Check.members document.definitions before declaration = [] ↔
      ∀ name, (item.memberNames name).Nodup ∧ ∀ member ∈ item.memberNames name,
        member ∉ before.flatMap (Definition.memberNames name) := by
  rw [Check.members, repetitions_eq_nil_iff, hnames.map_membersOf_before he,
    Definition.members_new_iff hitem]

/-- On sound names, the second pass is silent at a definition exactly when it is no second schema
definition, repeats no member and no root operation, and its own parts are fine. -/
theorem NamesSound.definition_eq_nil_iff [DecidableEq σ] {before after : List (Definition σ)}
    {item : Definition σ} (he : document.definitions = before ++ item :: after) :
    Check.definition document.definitions before item = [] ↔
      (item.schemaPlace?.isSome → before.filterMap Definition.schemaPlace? = []) ∧
      (∀ name, (item.memberNames name).Nodup ∧ ∀ member ∈ item.memberNames name,
        member ∉ before.flatMap (Definition.memberNames name)) ∧
      ((item.operations.map (·.operation.value)).Nodup ∧
        ∀ kind ∈ item.operations.map (·.operation.value),
          kind ∉ (before.flatMap Definition.operations).map (·.operation.value)) ∧
      Check.parts document.definitions item = [] := by
  cases item with
  | schema description block =>
    have hfirst : ((before.filterMap Definition.schemaPlace?).head?.map
        (Finding.duplicateSchema block.place)).toList = [] ↔
          before.filterMap Definition.schemaPlace? = [] := by
      rw [Option.toList_eq_nil_iff, Option.map_eq_none_iff, List.head?_eq_none_iff]
    rw [Check.definition, List.append_eq_nil_iff, hfirst, Check.schemaBlock_eq_nil_iff]
    constructor
    · rintro ⟨hbefore, hroots, hparts⟩
      exact ⟨fun _ => hbefore, fun _ => ⟨List.nodup_nil, List.forall_mem_nil _⟩, hroots, hparts⟩
    · rintro ⟨hbefore, _, hroots, hparts⟩
      exact ⟨hbefore rfl, hroots, hparts⟩
  | extendSchema block =>
    rw [Check.definition, Check.schemaBlock_eq_nil_iff]
    constructor
    · rintro ⟨hroots, hparts⟩
      exact ⟨fun h => absurd h Bool.false_ne_true,
        fun _ => ⟨List.nodup_nil, List.forall_mem_nil _⟩, hroots, hparts⟩
    · rintro ⟨_, _, hroots, hparts⟩
      exact ⟨hroots, hparts⟩
  | type description declaration =>
    have hregistered := hnames.isRegistered_eq_true
      (mem_typeDefinitions.mpr (he ▸ List.mem_append_right before List.mem_cons_self))
    rw [← hnames.members_eq_nil_iff he rfl]
    simp [Check.definition, Check.parts, Definition.schemaPlace?, Definition.operations,
      hregistered]
  | extendType declaration =>
    rw [← hnames.members_eq_nil_iff he rfl, Check.definition, List.append_eq_nil_iff,
      List.append_eq_nil_iff, Check.parts, List.append_eq_nil_iff]
    constructor
    · rintro ⟨⟨htarget, hmembers⟩, hparts⟩
      exact ⟨fun h => absurd h Bool.false_ne_true, hmembers,
        ⟨List.nodup_nil, List.forall_mem_nil _⟩, htarget, hparts⟩
    · rintro ⟨_, hmembers, _, htarget, hparts⟩
      exact ⟨⟨htarget, hmembers⟩, hparts⟩
  | directive description declaration =>
    simp [Check.definition, Check.parts, Definition.schemaPlace?, Definition.operations,
      Definition.memberNames, Definition.typeDeclaration?]

omit hnames in
/-- A reference to a type is fine exactly when the type is known. -/
theorem typeName_eq_nil_iff {name : Located σ String} :
    Check.typeName document.definitions name = [] ↔ document.Knows name.value := by
  rw [← isKnownType_iff, Check.typeName]
  split <;> simp_all

/-- A directive application is fine exactly when it may stand where it does and repeats no
argument. -/
theorem NamesSound.directiveUse_eq_nil_iff {location : DirectiveLocation}
    {use : DirectiveUse σ} :
    Check.directiveUse document.definitions location use = [] ↔
      document.Allows use.name.value location ∧ (use.arguments.map (·.name.value)).Nodup := by
  rw [← hnames.allowedLocations?_iff, Check.directiveUse, List.append_eq_nil_iff,
    repetitions_eq_nil_iff, List.map_map]
  refine and_congr ?_ (by simp [Function.comp_def])
  cases h : allowedLocations? document.definitions use.name.value with
  | none => simp
  | some allowed => by_cases hl : location ∈ allowed <;> simp [hl]

/-- An extension is fine exactly when it extends a defined type of its kind. -/
theorem NamesSound.extensionTarget_eq_nil_iff {extension : TypeDeclaration σ} :
    Check.extensionTarget document.definitions extension = [] ↔
      ∃ defined ∈ document.typeDefinitions,
        defined.2.name.value = extension.name.value ∧ defined.2.kind = extension.kind := by
  rw [Check.extensionTarget]
  constructor
  · intro h
    cases hd : declaredType? document.definitions extension.name.value with
    | none => simp [hd] at h
    | some declaration =>
      obtain ⟨⟨description, hm⟩, hn⟩ := hnames.declaredType?_eq_some_iff.mp hd
      exact ⟨_, hm, hn, by simpa [hd] using h⟩
  · intro ⟨defined, hm, hn, hk⟩
    simp [hnames.declaredType?_eq_some_iff.mpr ⟨⟨defined.1, hm⟩, hn⟩, hk]

/-- A root operation is fine exactly when a defined object type serves it. -/
theorem NamesSound.rootType_eq_nil_iff {root : RootOperation σ} :
    Check.rootType document.definitions root = [] ↔ ∃ defined ∈ document.typeDefinitions,
      defined.2.name.value = root.type.value ∧ defined.2.kind = .object := by
  rw [Check.rootType]
  constructor
  · intro h
    cases hd : declaredType? document.definitions root.type.value with
    | none =>
      simp only [hd] at h
      split at h <;> cases h
    | some declaration =>
      obtain ⟨⟨description, hm⟩, hn⟩ := hnames.declaredType?_eq_some_iff.mp hd
      exact ⟨_, hm, hn, by simpa [hd] using h⟩
  · intro ⟨defined, hm, hn, hk⟩
    simp [hnames.declaredType?_eq_some_iff.mpr ⟨⟨defined.1, hm⟩, hn⟩, hk]

omit hnames in
/-- The parts of all definitions are fine exactly when those of all schema blocks, types, extensions
and directives are. -/
theorem parts_eq_nil_iff {all : List (Definition σ)} :
    (∀ item ∈ document.definitions, Check.parts all item = []) ↔
      (∀ block ∈ document.schemaBlocks, ∀ use ∈ block.directives,
        Check.directiveUse all .schema use = []) ∧
      (∀ root ∈ document.operations, Check.rootType all root = []) ∧
      (∀ declaration ∈ document.typeDeclarations, Check.typeParts all declaration = []) ∧
      (∀ extension ∈ document.typeExtensions, Check.extensionTarget all extension = []) ∧
      ∀ declaration ∈ document.directiveDefinitions,
        Check.arguments all declaration.arguments = [] := by
  constructor
  · intro h
    refine ⟨?_, ?_, ?_, ?_, ?_⟩
    · intro block hb use hu
      rcases mem_schemaBlocks.mp hb with ⟨description, hd⟩ | hd
      · have hp := List.append_eq_nil_iff.mp (h _ hd)
        exact List.flatMap_eq_nil_iff.mp hp.1 use hu
      · have hp := List.append_eq_nil_iff.mp (h _ hd)
        exact List.flatMap_eq_nil_iff.mp hp.1 use hu
    · intro root hr
      obtain ⟨item, hi, hroot⟩ := List.mem_flatMap.mp hr
      have hp := h item hi
      cases item with
      | schema description block =>
        exact List.flatMap_eq_nil_iff.mp (List.append_eq_nil_iff.mp hp).2 root hroot
      | extendSchema block =>
        exact List.flatMap_eq_nil_iff.mp (List.append_eq_nil_iff.mp hp).2 root hroot
      | _ => simp [Definition.operations] at hroot
    · intro declaration hd
      rcases mem_typeDeclarations.mp hd with ⟨description, hm⟩ | hm
      · exact h _ (mem_typeDefinitions.mp hm)
      · exact (List.append_eq_nil_iff.mp (h _ (mem_typeExtensions.mp hm))).2
    · intro extension he
      exact (List.append_eq_nil_iff.mp (h _ (mem_typeExtensions.mp he))).1
    · intro declaration hd
      obtain ⟨description, hm⟩ := mem_directiveDefinitions.mp hd
      exact h _ hm
  · intro ⟨hblocks, hroots, htypes, hextensions, hdirectives⟩ item hi
    cases item with
    | schema description block =>
      refine List.append_eq_nil_iff.mpr ⟨List.flatMap_eq_nil_iff.mpr ?_,
        List.flatMap_eq_nil_iff.mpr ?_⟩
      · exact hblocks block (mem_schemaBlocks.mpr (.inl ⟨description, hi⟩))
      · exact fun root hr => hroots root (List.mem_flatMap.mpr ⟨_, hi, hr⟩)
    | extendSchema block =>
      refine List.append_eq_nil_iff.mpr ⟨List.flatMap_eq_nil_iff.mpr ?_,
        List.flatMap_eq_nil_iff.mpr ?_⟩
      · exact hblocks block (mem_schemaBlocks.mpr (.inr hi))
      · exact fun root hr => hroots root (List.mem_flatMap.mpr ⟨_, hi, hr⟩)
    | type description declaration =>
      exact htypes declaration
        (mem_typeDeclarations.mpr (.inl ⟨description, mem_typeDefinitions.mpr hi⟩))
    | extendType declaration =>
      have hm := mem_typeExtensions.mpr hi
      exact List.append_eq_nil_iff.mpr ⟨hextensions declaration hm,
        htypes declaration (mem_typeDeclarations.mpr (.inr hm))⟩
    | directive description declaration =>
      exact hdirectives declaration (mem_directiveDefinitions.mpr ⟨description, hi⟩)

/-- An input value is fine exactly when its type is known and its directives are fine. -/
theorem NamesSound.inputValue_eq_nil_iff {location : DirectiveLocation} {input : InputValue σ} :
    Check.inputValue document.definitions location input = [] ↔
      document.Knows input.type.type.baseName ∧
        ∀ use ∈ input.directives, document.Allows use.name.value location ∧
          (use.arguments.map (·.name.value)).Nodup := by
  simp only [Check.inputValue, Check.typeUse, List.append_eq_nil_iff, List.flatMap_eq_nil_iff,
    typeName_eq_nil_iff, hnames.directiveUse_eq_nil_iff]

/-- Argument definitions are fine exactly when their names differ and each is fine. -/
theorem NamesSound.arguments_eq_nil_iff {arguments : List (InputValue σ)} :
    Check.arguments document.definitions arguments = [] ↔
      (arguments.map (·.name.value)).Nodup ∧
        ∀ argument ∈ arguments, document.Knows argument.type.type.baseName ∧
          ∀ use ∈ argument.directives, document.Allows use.name.value .argumentDefinition ∧
            (use.arguments.map (·.name.value)).Nodup := by
  simp only [Check.arguments, List.append_eq_nil_iff, List.flatMap_eq_nil_iff,
    repetitions_eq_nil_iff, hnames.inputValue_eq_nil_iff, List.map_map, Function.comp_def,
    List.map_nil, List.not_mem_nil, not_false_eq_true, implies_true, and_true]

/-- The parts of a document with sound names are fine exactly when the document lists distinct
arguments, refers to known types, applies directives where it may, names object types as roots and
extends types of the right kind. -/
theorem NamesSound.parts_eq_nil_iff :
    (∀ item ∈ document.definitions, Check.parts document.definitions item = []) ↔
      (∀ names, document.HasArguments names → names.Nodup) ∧
      (∀ name, document.Mentions name → document.Knows name) ∧
      (∀ use location, document.Applies use location →
        document.Allows use.name.value location) ∧
      (∀ root ∈ document.operations, ∃ defined ∈ document.typeDefinitions,
        defined.2.name.value = root.type.value ∧ defined.2.kind = .object) ∧
      ∀ extension ∈ document.typeExtensions, ∃ defined ∈ document.typeDefinitions,
        defined.2.name.value = extension.name.value ∧ defined.2.kind = extension.kind := by
  rw [Document.parts_eq_nil_iff]
  simp only [Check.typeParts, Check.field, Check.typeUse, List.append_eq_nil_iff,
    List.flatMap_eq_nil_iff, typeName_eq_nil_iff, hnames.directiveUse_eq_nil_iff,
    hnames.inputValue_eq_nil_iff, hnames.arguments_eq_nil_iff, hnames.rootType_eq_nil_iff,
    hnames.extensionTarget_eq_nil_iff]
  constructor
  · intro ⟨hblocks, hroots, htypes, hextensions, hdirectives⟩
    have huse : ∀ use location, document.Applies use location →
        document.Allows use.name.value location ∧
          (use.arguments.map (·.name.value)).Nodup := by
      intro use location h
      cases h with
      | schema hb hu => exact hblocks _ hb use hu
      | type hd hu => exact (htypes _ hd).1.1.1.1.2 use hu
      | field hd hf hu => exact ((htypes _ hd).1.1.1.2 _ hf).2 use hu
      | fieldArgument hd hf ha hu => exact (((htypes _ hd).1.1.1.2 _ hf).1.1.2 _ ha).2 use hu
      | inputField hd hf hu => exact ((htypes _ hd).1.1.2 _ hf).2 use hu
      | enumValue hd hv hu => exact (htypes _ hd).2 _ hv use hu
      | directiveArgument hd ha hu => exact ((hdirectives _ hd).2 _ ha).2 use hu
    refine ⟨?_, ?_, fun use location h => (huse use location h).1, hroots, hextensions⟩
    · intro names h
      cases h with
      | field hd hf => exact ((htypes _ hd).1.1.1.2 _ hf).1.1.1
      | directive hd => exact (hdirectives _ hd).1
      | application h => exact (huse _ _ h).2
    · intro name h
      cases h with
      | field hd hf => exact ((htypes _ hd).1.1.1.2 _ hf).1.2
      | fieldArgument hd hf ha => exact (((htypes _ hd).1.1.1.2 _ hf).1.1.2 _ ha).1
      | inputField hd hf => exact ((htypes _ hd).1.1.2 _ hf).1
      | directiveArgument hd ha => exact ((hdirectives _ hd).2 _ ha).1
      | interface hd hn => exact (htypes _ hd).1.1.1.1.1 _ hn
      | member hd hn => exact (htypes _ hd).1.2 _ hn
  · intro ⟨harguments, hknown, hallowed, hroots, hextensions⟩
    have huse : ∀ use location, document.Applies use location →
        document.Allows use.name.value location ∧
          (use.arguments.map (·.name.value)).Nodup :=
      fun use location h => ⟨hallowed use location h, harguments _ (.application h)⟩
    refine ⟨fun block hb use hu => huse use _ (.schema hb hu), hroots, ?_, hextensions, ?_⟩
    · intro declaration hd
      refine ⟨⟨⟨⟨⟨?_, ?_⟩, ?_⟩, ?_⟩, ?_⟩, ?_⟩
      · exact fun name hn => hknown _ (.interface hd hn)
      · exact fun use hu => huse use _ (.type hd hu)
      · intro field hf
        refine ⟨⟨⟨harguments _ (.field hd hf), ?_⟩, hknown _ (.field hd hf)⟩, ?_⟩
        · exact fun argument ha => ⟨hknown _ (.fieldArgument hd hf ha),
            fun use hu => huse use _ (.fieldArgument hd hf ha hu)⟩
        · exact fun use hu => huse use _ (.field hd hf hu)
      · exact fun field hf => ⟨hknown _ (.inputField hd hf),
          fun use hu => huse use _ (.inputField hd hf hu)⟩
      · exact fun name hn => hknown _ (.member hd hn)
      · exact fun value hv use hu => huse use _ (.enumValue hd hv hu)
    · intro declaration hd
      refine ⟨harguments _ (.directive hd), fun argument ha => ?_⟩
      exact ⟨hknown _ (.directiveArgument hd ha),
        fun use hu => huse use _ (.directiveArgument hd ha hu)⟩

/-- On sound names, the second pass is silent exactly when the schema is defined at most once,
members and root operations are distinct, and all parts are fine. -/
theorem NamesSound.definitions_eq_nil_iff [DecidableEq σ] :
    withEarlier (Check.definition document.definitions) [] document.definitions = [] ↔
      (document.definitions.filterMap Definition.schemaPlace?).length ≤ 1 ∧
      (∀ name, (document.memberNames name).Nodup) ∧
      (document.operations.map (·.operation.value)).Nodup ∧
      ∀ item ∈ document.definitions, Check.parts document.definitions item = [] := by
  rw [withEarlier_eq_nil_iff]
  simp only [List.nil_append]
  rw [EachAfter.congr fun before item after he => hnames.definition_eq_nil_iff he]
  simp only [EachAfter.and_iff, EachAfter.forall_iff, EachAfter.forall_comm,
    length_filterMap_le_one_iff, memberNames, operations, List.map_flatMap,
    EachAfter.nodup_flatMap_iff]

omit hnames in
/-- Nothing is found exactly in sound documents. -/
theorem findings_eq_nil_iff [DecidableEq σ] : document.findings = [] ↔ document.Sound := by
  rw [findings, List.append_eq_nil_iff, registrations_eq_nil_iff]
  constructor
  · intro ⟨hnames, h⟩
    obtain ⟨hschema, hmembers, hoperations, hparts⟩ := hnames.definitions_eq_nil_iff.mp h
    obtain ⟨harguments, hknown, hallowed, hroots, hextensions⟩ :=
      hnames.parts_eq_nil_iff.mp hparts
    exact ⟨hnames, hmembers, harguments, hknown, hallowed, hschema, hoperations, hroots,
      hextensions⟩
  · intro h
    have hnames := h.toNamesSound
    refine ⟨hnames, hnames.definitions_eq_nil_iff.mpr ⟨h.schema_unique, h.members_nodup,
      h.operations_nodup, hnames.parts_eq_nil_iff.mpr ⟨h.arguments_nodup, h.types_known,
        h.directives_allowed, h.roots_object, h.extensions_fit⟩⟩⟩

end Document

/-- Checking a document succeeds exactly when the document is sound. -/
theorem SignificantTokens.check_eq_ok_iff (source : SignificantTokens)
    (document : Document Extent) : source.check document = .ok () ↔ document.Sound := by
  rw [← Document.findings_eq_nil_iff, check]
  cases document.findings <;> simp

end SdlGraph
