import Mathlib.Data.List.Flatten
import Mathlib.Tactic.MkIffOfInductiveProp
import SdlGraph.Proofs.Catalog.Contents

/-!
# Catalogs are closed and well formed

A catalog is well formed if its types are found under their own distinct names, all names used in it
are names of its types, members and arguments are distinct, only members of the right sort are there
for each kind, and root operations are served by object types that are not built in. Soundness of
the document carries over: the declarations merged into an entry are those of one name, so their
members are distinct, and they are of one kind.
-/

namespace SdlGraph

/-- An entry of a type fits into a catalog that knows some names of types. -/
@[mk_iff]
structure TypeEntry.WellFormed (known : String → Prop) (type : TypeEntry) : Prop where
  /-- Fields and their arguments have known types. -/
  fields_known : ∀ field ∈ type.fields, known field.type.baseName ∧
    ∀ argument ∈ field.arguments, known argument.type.baseName
  /-- Interfaces are known. -/
  interfaces_known : ∀ name ∈ type.interfaces, known name
  /-- Members of a union are known. -/
  possibleTypes_known : ∀ name ∈ type.possibleTypes, known name
  /-- Fields are distinct. -/
  fields_nodup : (type.fields.map (·.name)).Nodup
  /-- Enum values are distinct. -/
  enumValues_nodup : type.enumValues.Nodup
  /-- The arguments of a field are distinct. -/
  arguments_nodup : ∀ field ∈ type.fields, (field.arguments.map (·.name)).Nodup
  /-- Only object, interface and input object types have fields. -/
  kind_of_fields : type.fields ≠ [] →
    type.kind = .object ∨ type.kind = .interface ∨ type.kind = .inputObject
  /-- Only object and interface types have interfaces. -/
  kind_of_interfaces : type.interfaces ≠ [] → type.kind = .object ∨ type.kind = .interface
  /-- Only unions have possible types. -/
  kind_of_possibleTypes : type.possibleTypes ≠ [] → type.kind = .union
  /-- Only enums have values. -/
  kind_of_enumValues : type.enumValues ≠ [] → type.kind = .enum

instance (known : String → Prop) [DecidablePred known] (type : TypeEntry) :
    Decidable (type.WellFormed known) :=
  decidable_of_iff' _ (TypeEntry.wellFormed_iff known type)

/-- A catalog is closed and well formed. -/
structure Catalog.WellFormed (catalog : Catalog) : Prop where
  /-- No two types have one name. -/
  names_nodup : catalog.types.names.Nodup
  /-- Every type is found under its name. -/
  type?_name : ∀ type ∈ catalog.types.entries, catalog.type? type.name = some type
  /-- Every type fits among the types of the catalog. -/
  types : ∀ type ∈ catalog.types.entries, type.WellFormed (· ∈ catalog.types.names)
  /-- The arguments of directives have types of the catalog. -/
  directives_known : ∀ directive ∈ catalog.directives.entries,
    ∀ argument ∈ directive.arguments, argument.type.baseName ∈ catalog.types.names
  /-- The arguments of a directive are distinct. -/
  directives_nodup : ∀ directive ∈ catalog.directives.entries,
    (directive.arguments.map (·.name)).Nodup
  /-- Root operations are served by object types that are not built in. -/
  roots_object : ∀ operation name, catalog.roots.get operation = some name →
    ∃ type ∈ catalog.types.entries,
      type.name = name ∧ type.isBuiltIn = false ∧ type.kind = .object

variable {σ : Type}

namespace TypeBody

theorem kind_of_fieldEntries (body : TypeBody σ) (h : body.fieldEntries ≠ []) :
    body.kind ∈ [TypeKind.object, .interface, .inputObject] := by
  cases body <;> simp_all [fieldEntries, fields, inputFields, kind]

theorem kind_of_interfaces (body : TypeBody σ) (h : body.interfaces.map (·.value) ≠ []) :
    body.kind ∈ [TypeKind.object, .interface] := by
  cases body <;> simp_all [interfaces, kind]

theorem kind_of_members (body : TypeBody σ) (h : body.members.map (·.value) ≠ []) :
    body.kind ∈ [TypeKind.union] := by
  cases body <;> simp_all [members, kind]

theorem kind_of_values (body : TypeBody σ) (h : body.values.map (·.name.value) ≠ []) :
    body.kind ∈ [TypeKind.enum] := by
  cases body <;> simp_all [values, kind]

end TypeBody

namespace Document

variable {document : Document σ}

/-- The declarations merged into the entry of a type: its definition and its extensions. -/
def declarationsOf (document : Document σ) (defined : TypeDeclaration σ) :
    List (TypeDeclaration σ) :=
  defined :: document.typeExtensions.filter fun declaration =>
    declaration.name.value == defined.name.value

section Entries

variable {defined : Option (Located σ String) × TypeDeclaration σ}

theorem fields_typeEntry : (document.typeEntry defined).fields =
    (document.declarationsOf defined.2).flatMap (·.body.fieldEntries) := by
  simp [typeEntry, extensionBodies, TypeEntry.ofBodies, declarationsOf, List.flatMap_map]

theorem interfaces_typeEntry : (document.typeEntry defined).interfaces =
    (document.declarationsOf defined.2).flatMap (·.body.interfaces.map (·.value)) := by
  simp [typeEntry, extensionBodies, TypeEntry.ofBodies, declarationsOf, List.flatMap_map]

theorem possibleTypes_typeEntry : (document.typeEntry defined).possibleTypes =
    (document.declarationsOf defined.2).flatMap (·.body.members.map (·.value)) := by
  simp [typeEntry, extensionBodies, TypeEntry.ofBodies, declarationsOf, List.flatMap_map]

theorem enumValues_typeEntry : (document.typeEntry defined).enumValues =
    (document.declarationsOf defined.2).flatMap (·.body.values.map (·.name.value)) := by
  simp [typeEntry, extensionBodies, TypeEntry.ofBodies, declarationsOf, List.flatMap_map]

end Entries

/-- All type declarations are the definitions and the extensions, in another order. -/
theorem typeDeclarations_perm : document.typeDeclarations.Perm
    (document.typeDefinitions.map Prod.snd ++ document.typeExtensions) := by
  obtain ⟨definitions⟩ := document
  simp only [typeDeclarations, typeDefinitions, typeExtensions]
  induction definitions with
  | nil => simp
  | cons definition rest ih =>
    cases definition with
    | type description declaration =>
      simpa [List.filterMap_cons, Definition.typeDeclaration?] using ih
    | extendType declaration =>
      simp only [List.filterMap_cons, Definition.typeDeclaration?]
      exact (ih.cons declaration).trans List.perm_middle.symm
    | _ => simpa [List.filterMap_cons, Definition.typeDeclaration?] using ih

/-- The members of a type are those of the declarations of its name. -/
theorem memberNames_eq_flatMap (name : String) :
    document.memberNames name =
      (document.typeDeclarations.filter (·.name.value == name)).flatMap
        (·.body.memberNames.map (·.value)) := by
  simp only [memberNames, typeDeclarations]
  induction document.definitions with
  | nil => rfl
  | cons definition rest ih =>
    rw [List.flatMap_cons, ih, List.filterMap_cons, Definition.memberNames]
    cases definition.typeDeclaration? with
    | none => rfl
    | some declaration => by_cases hn : declaration.name.value = name <;> simp [hn]

variable (hsound : document.Sound)

include hsound

/-- The declarations merged into an entry are all declarations of its name. -/
theorem Sound.declarationsOf_perm {description : Option (Located σ String)}
    {defined : TypeDeclaration σ} (hd : (description, defined) ∈ document.typeDefinitions) :
    (document.typeDeclarations.filter (·.name.value == defined.name.value)).Perm
      (document.declarationsOf defined) := by
  refine (typeDeclarations_perm.filter _).trans ?_
  have hnodup : ((document.typeDefinitions.map Prod.snd).map (·.name.value)).Nodup := by
    rw [List.map_map]
    exact hsound.types_nodup
  rw [List.filter_append, filter_key_eq_singleton hnodup (List.mem_map_of_mem hd)]
  exact List.Perm.refl _

/-- The members of the declarations merged into an entry are distinct. -/
theorem Sound.nodup_members {description : Option (Located σ String)}
    {defined : TypeDeclaration σ} (hd : (description, defined) ∈ document.typeDefinitions) :
    ((document.declarationsOf defined).flatMap (·.body.memberNames.map (·.value))).Nodup := by
  have hmembers := hsound.members_nodup defined.name.value
  rw [memberNames_eq_flatMap] at hmembers
  exact ((hsound.declarationsOf_perm hd).flatMap_right _).nodup_iff.mp hmembers

/-- The declarations merged into an entry are declarations of the document, of one kind. -/
theorem Sound.mem_declarationsOf {description : Option (Located σ String)}
    {defined declaration : TypeDeclaration σ}
    (hd : (description, defined) ∈ document.typeDefinitions)
    (hm : declaration ∈ document.declarationsOf defined) :
    declaration ∈ document.typeDeclarations ∧ declaration.kind = defined.kind := by
  rcases List.mem_cons.mp hm with rfl | hm
  · exact ⟨mem_typeDeclarations.mpr (.inl ⟨description, hd⟩), rfl⟩
  · obtain ⟨he, hn⟩ := List.mem_filter.mp hm
    obtain ⟨other, ho, hon, hok⟩ := hsound.extensions_fit declaration he
    have hsame : other = (description, defined) :=
      List.inj_on_of_nodup_map hsound.types_nodup ho hd (hon.trans (by simpa using hn))
    refine ⟨mem_typeDeclarations.mpr (.inr he), ?_⟩
    rw [← hok, hsame]

/-- The names of a catalog are the names that its document knows. -/
theorem Sound.mem_names_types {catalog : Catalog} (h : document.assemble = .ok catalog)
    {name : String} (hk : document.Knows name) : name ∈ catalog.types.names := by
  have hown : document.ownTypes.names = document.typeDefinitions.map (·.2.name.value) := by
    rw [Roster.names, hsound.entries_ownTypes, List.map_map]
    rfl
  rw [Roster.names, hsound.entries_types h, List.map_append, ← hsound.entries_ownTypes,
    List.mem_append]
  by_cases hm : name ∈ document.ownTypes.names
  · exact .inl hm
  · refine .inr ?_
    have hb : name ∈ BuiltIn.types.map (·.name) := by
      rcases hk with ⟨defined, hd, hn⟩ | hs | hi
      · exact absurd (hown ▸ List.mem_map.mpr ⟨defined, hd, hn⟩) hm
      · rw [BuiltIn.types, List.map_append]
        exact List.mem_append_left _ hs
      · rw [BuiltIn.types, List.map_append]
        exact List.mem_append_right _ hi
    obtain ⟨type, ht, rfl⟩ := List.mem_map.mp hb
    refine List.mem_map.mpr ⟨type, List.mem_filter.mpr ⟨ht, ?_⟩, rfl⟩
    simpa [← Roster.contains_iff] using hm

/-- What a type has in its fields comes from a field of an object or interface type, or of an input
object type, in a declaration merged into its entry. -/
theorem Sound.mem_fields_typeEntry {defined : Option (Located σ String) × TypeDeclaration σ}
    (hd : defined ∈ document.typeDefinitions) {field : FieldEntry}
    (hf : field ∈ (document.typeEntry defined).fields) :
    ∃ declaration ∈ document.typeDeclarations,
      (∃ written ∈ declaration.body.fields, written.entry = field) ∨
        ∃ written ∈ declaration.body.inputFields, written.fieldEntry = field := by
  rw [fields_typeEntry] at hf
  obtain ⟨declaration, hm, hf⟩ := List.mem_flatMap.mp hf
  rw [TypeBody.fieldEntries, List.mem_append, List.mem_map, List.mem_map] at hf
  exact ⟨declaration, (hsound.mem_declarationsOf hd hm).1, hf⟩

/-- A part found in a declaration merged into an entry tells the kind of the entry. -/
theorem Sound.kind_typeEntry {α : Type}
    {defined : Option (Located σ String) × TypeDeclaration σ}
    (hd : defined ∈ document.typeDefinitions) {parts : TypeBody σ → List α} {kinds : List TypeKind}
    (hparts : ∀ body, parts body ≠ [] → body.kind ∈ kinds)
    (hne : ((document.declarationsOf defined.2).flatMap (parts ·.body)) ≠ []) :
    (document.typeEntry defined).kind ∈ kinds := by
  obtain ⟨part, hp⟩ := List.exists_mem_of_ne_nil _ hne
  obtain ⟨declaration, hm, hp⟩ := List.mem_flatMap.mp hp
  have hkind : (document.typeEntry defined).kind = declaration.body.kind :=
    (hsound.mem_declarationsOf hd hm).2.symm
  rw [hkind]
  exact hparts _ (List.ne_nil_of_mem hp)

/-- The fields of an entry, and its enum values, have distinct names. -/
theorem Sound.nodup_typeEntry {defined : Option (Located σ String) × TypeDeclaration σ}
    (hd : defined ∈ document.typeDefinitions) :
    ((document.typeEntry defined).fields.map (·.name)).Nodup ∧
      (document.typeEntry defined).enumValues.Nodup := by
  rw [fields_typeEntry, enumValues_typeEntry, List.map_flatMap]
  constructor
  · refine (List.Sublist.flatMap_right _ fun other _ => ?_).nodup (hsound.nodup_members hd)
    simp [TypeBody.fieldEntries, TypeBody.memberNames, Function.comp_def, Field.entry,
      InputValue.fieldEntry]
  · refine (List.Sublist.flatMap_right _ fun other _ => ?_).nodup (hsound.nodup_members hd)
    simp [TypeBody.memberNames, Function.comp_def]

/-- The entry of a type definition fits among the names that its document knows. -/
theorem Sound.wellFormed_typeEntry {defined : Option (Located σ String) × TypeDeclaration σ}
    (hd : defined ∈ document.typeDefinitions) :
    (document.typeEntry defined).WellFormed document.Knows where
  fields_known := by
    intro field hf
    obtain ⟨declaration, hm, hwritten⟩ := hsound.mem_fields_typeEntry hd hf
    rcases hwritten with ⟨written, hw, rfl⟩ | ⟨written, hw, rfl⟩
    · refine ⟨hsound.types_known _ (.field hm hw), ?_⟩
      intro argument ha
      obtain ⟨input, hi, rfl⟩ := List.mem_map.mp ha
      exact hsound.types_known _ (.fieldArgument hm hw hi)
    · refine ⟨hsound.types_known _ (.inputField hm hw), ?_⟩
      intro argument ha
      exact absurd ha (by simp [InputValue.fieldEntry])
  interfaces_known := by
    intro name hn
    rw [interfaces_typeEntry] at hn
    obtain ⟨declaration, hm, hn⟩ := List.mem_flatMap.mp hn
    obtain ⟨written, hw, rfl⟩ := List.mem_map.mp hn
    exact hsound.types_known _ (.interface (hsound.mem_declarationsOf hd hm).1 hw)
  possibleTypes_known := by
    intro name hn
    rw [possibleTypes_typeEntry] at hn
    obtain ⟨declaration, hm, hn⟩ := List.mem_flatMap.mp hn
    obtain ⟨written, hw, rfl⟩ := List.mem_map.mp hn
    exact hsound.types_known _ (.member (hsound.mem_declarationsOf hd hm).1 hw)
  fields_nodup := (hsound.nodup_typeEntry hd).1
  enumValues_nodup := (hsound.nodup_typeEntry hd).2
  arguments_nodup := by
    intro field hf
    obtain ⟨declaration, hm, hwritten⟩ := hsound.mem_fields_typeEntry hd hf
    rcases hwritten with ⟨written, hw, rfl⟩ | ⟨written, hw, rfl⟩
    · have hnodup := hsound.arguments_nodup _ (.field hm hw)
      simpa [Field.entry, InputValue.argumentEntry, Function.comp_def] using hnodup
    · simp [InputValue.fieldEntry]
  kind_of_fields := by
    rw [fields_typeEntry]
    intro hne
    have hkind := hsound.kind_typeEntry hd TypeBody.kind_of_fieldEntries hne
    simpa using hkind
  kind_of_interfaces := by
    rw [interfaces_typeEntry]
    intro hne
    have hkind := hsound.kind_typeEntry hd TypeBody.kind_of_interfaces hne
    simpa using hkind
  kind_of_possibleTypes := by
    rw [possibleTypes_typeEntry]
    intro hne
    have hkind := hsound.kind_typeEntry hd TypeBody.kind_of_members hne
    simpa using hkind
  kind_of_enumValues := by
    rw [enumValues_typeEntry]
    intro hne
    have hkind := hsound.kind_typeEntry hd TypeBody.kind_of_values hne
    simpa using hkind

/-- Root operations are served by entries of object types that the document defines. -/
theorem Sound.root?_object {operation : OperationKind} {name : String}
    (hroot : document.root? operation = some name) :
    ∃ type ∈ document.ownTypes.entries,
      type.name = name ∧ type.isBuiltIn = false ∧ type.kind = .object := by
  unfold root? at hroot
  split at hroot
  · unfold conventionalRoot? at hroot
    split at hroot
    next type htype =>
      split at hroot
      next hkind =>
        obtain ⟨hm, hn⟩ := Roster.get?_eq_some_iff.mp htype
        refine ⟨type, hm, hn.trans (Option.some.inj hroot), ?_, hkind⟩
        rw [hsound.entries_ownTypes] at hm
        obtain ⟨defined, -, rfl⟩ := List.mem_map.mp hm
        rfl
      next => cases hroot
    next => cases hroot
  · obtain ⟨root, hlast, rfl⟩ := Option.map_eq_some_iff.mp hroot
    have hm := (List.mem_filter.mp (List.mem_of_getLast? hlast)).1
    obtain ⟨block, hb, hr⟩ := List.mem_flatMap.mp hm
    have hoperation : root ∈ document.operations := by
      rcases mem_schemaBlocks.mp hb with ⟨description, hd⟩ | hd
      · exact List.mem_flatMap.mpr ⟨_, hd, hr⟩
      · exact List.mem_flatMap.mpr ⟨_, hd, hr⟩
    obtain ⟨defined, hd, hn, hk⟩ := hsound.roots_object root hoperation
    refine ⟨document.typeEntry defined, ?_, hn, rfl, hk⟩
    rw [hsound.entries_ownTypes]
    exact List.mem_map_of_mem hd

end Document

/-- A well-formed entry stays so where more names are known. -/
theorem TypeEntry.WellFormed.mono {known known' : String → Prop} {type : TypeEntry}
    (h : type.WellFormed known) (hknown : ∀ name, known name → known' name) :
    type.WellFormed known' :=
  { h with
    fields_known := fun field hf => ⟨hknown _ (h.fields_known field hf).1,
      fun argument ha => hknown _ ((h.fields_known field hf).2 argument ha)⟩
    interfaces_known := fun name hn => hknown _ (h.interfaces_known name hn)
    possibleTypes_known := fun name hn => hknown _ (h.possibleTypes_known name hn) }

/-- The built-in types fit among themselves. -/
theorem BuiltIn.wellFormed_types : ∀ type ∈ BuiltIn.types,
    type.WellFormed fun name => name ∈ builtInScalars ∨ name ∈ introspectionTypes := by
  decide +kernel

/-- The arguments of built-in directives are distinct and have built-in scalar types. -/
theorem BuiltIn.arguments_directives : ∀ directive ∈ BuiltIn.directives,
    (directive.arguments.map (·.name)).Nodup ∧
      ∀ argument ∈ directive.arguments, argument.type.baseName ∈ builtInScalars := by
  decide

/-- The catalog of a sound document is closed and well formed. -/
theorem Document.Sound.wellFormed_assemble {document : Document σ} (hsound : document.Sound)
    {catalog : Catalog} (h : document.assemble = .ok catalog) : catalog.WellFormed where
  names_nodup := catalog.types.nodup
  type?_name := fun type ht => Roster.get?_eq_some_iff.mpr ⟨ht, rfl⟩
  types := by
    intro type ht
    rw [hsound.entries_types h, List.mem_append, List.mem_filter] at ht
    rcases ht with ht | ⟨ht, -⟩
    · obtain ⟨defined, hd, rfl⟩ := List.mem_map.mp ht
      exact (hsound.wellFormed_typeEntry hd).mono fun name hk => hsound.mem_names_types h hk
    · exact (BuiltIn.wellFormed_types type ht).mono fun name hk =>
        hsound.mem_names_types h (.inr hk)
  directives_known := by
    intro directive hm argument ha
    rw [hsound.entries_directives h, List.mem_append] at hm
    rcases hm with hm | hm
    · exact hsound.mem_names_types h
        (.inr (.inl ((BuiltIn.arguments_directives directive hm).2 argument ha)))
    · obtain ⟨declaration, hd, rfl⟩ := List.mem_map.mp hm
      obtain ⟨input, hi, rfl⟩ := List.mem_map.mp ha
      exact hsound.mem_names_types h (hsound.types_known _ (.directiveArgument hd hi))
  directives_nodup := by
    intro directive hm
    rw [hsound.entries_directives h, List.mem_append] at hm
    rcases hm with hm | hm
    · exact (BuiltIn.arguments_directives directive hm).1
    · obtain ⟨declaration, hd, rfl⟩ := List.mem_map.mp hm
      have hnodup := hsound.arguments_nodup _ (.directive hd)
      simpa [DirectiveDeclaration.entry, InputValue.argumentEntry, Function.comp_def] using hnodup
  roots_object := by
    intro operation name hroot
    rw [Document.get_roots h] at hroot
    obtain ⟨type, ht, hn, hb, hk⟩ := hsound.root?_object hroot
    refine ⟨type, ?_, hn, hb, hk⟩
    rw [hsound.entries_types h, ← hsound.entries_ownTypes]
    exact List.mem_append_left _ ht

/-- The catalog of a schema text is closed and well formed. -/
theorem Catalog.wellFormed_of_ofSource {source : String} {catalog : Catalog}
    (h : Catalog.ofSource source = .ok catalog) : catalog.WellFormed := by
  obtain ⟨tokens, document, -, -, hsound, hassemble⟩ := Catalog.ofSource_eq_ok_iff.mp h
  exact hsound.wellFormed_assemble hassemble

/-- An extension before its type, an interface, a union and a directive go into one catalog. -/
theorem Catalog.wellFormed_extended_type : ∃ catalog,
    Catalog.ofSource "extend type A @tag \x7b b(n: Int = 1): [A!] \x7d
      schema \x7b query: A \x7d interface I \x7b a: ID \x7d
      type A implements I \x7b a: ID \x7d union U = A directive @tag on OBJECT" = .ok catalog ∧
      catalog.WellFormed := by
  have hok : (Catalog.ofSource "extend type A @tag \x7b b(n: Int = 1): [A!] \x7d
      schema \x7b query: A \x7d interface I \x7b a: ID \x7d
      type A implements I \x7b a: ID \x7d union U = A directive @tag on OBJECT").isOk = true := by
    decide +kernel
  obtain ⟨catalog, h⟩ := exists_ok_of_isOk hok
  exact ⟨catalog, h, wellFormed_of_ofSource h⟩

end SdlGraph
