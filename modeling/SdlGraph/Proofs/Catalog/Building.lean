import SdlGraph.Catalog.Assembly
import SdlGraph.Proofs.Catalog.Rosters
import SdlGraph.Proofs.Validation.Sound

/-!
# What a builder comes to

The first time through a document puts its types and directives under their names. The second time
through keeps these names and adds to each type what the extensions of its name hold, one after the
other; it stops at the first extension without a type. By induction on the definitions gone through
this tells the catalog that is assembled from the document alone: its types and extensions by name,
and its schema blocks.
-/

namespace SdlGraph

variable {σ : Type}

/-- The field entries of the body of a type. -/
def TypeBody.fieldEntries (body : TypeBody σ) : List FieldEntry :=
  body.fields.map Field.entry ++ body.inputFields.map InputValue.fieldEntry

/-- The entry of a type with the bodies of its definition and extensions, in this order. -/
def TypeEntry.ofBodies (name : String) (kind : TypeKind) (description : Option String)
    (bodies : List (TypeBody σ)) : TypeEntry where
  name := name
  kind := kind
  fields := bodies.flatMap TypeBody.fieldEntries
  interfaces := bodies.flatMap fun body => body.interfaces.map (·.value)
  possibleTypes := bodies.flatMap fun body => body.members.map (·.value)
  enumValues := bodies.flatMap fun body => body.values.map (·.name.value)
  description := description
  isBuiltIn := false

namespace Document

/-- The bodies of the extensions of a name, in written order. -/
def extensionBodies (document : Document σ) (name : String) : List (TypeBody σ) :=
  (document.typeExtensions.filter (·.name.value == name)).map (·.body)

/-- The names of the types that a document defines, in order of first definition. -/
def definedNames (document : Document σ) : List String :=
  (document.typeDefinitions.map (·.2.name.value)).eraseDups

/-- The entry of a type definition, extensions included. -/
def typeEntry (document : Document σ)
    (defined : Option (Located σ String) × TypeDeclaration σ) : TypeEntry :=
  .ofBodies defined.2.name.value defined.2.kind (defined.1.map (·.value))
    (defined.2.body :: document.extensionBodies defined.2.name.value)

/-- The types of a document, without what is built in. -/
def ownTypes (document : Document σ) : Roster TypeEntry :=
  Roster.ofList (document.typeDefinitions.map document.typeEntry)

/-- The type that the schema blocks name for an operation; the last one counts. -/
def namedRoot? (document : Document σ) (kind : OperationKind) : Option String :=
  (((document.schemaBlocks.flatMap (·.operations)).filter fun root =>
    root.operation.value == kind).getLast?).map (·.type.value)

/-- The object type of the conventional name for an operation, if the document has one. -/
def conventionalRoot? (document : Document σ) (kind : OperationKind) : Option String :=
  match document.ownTypes.get? kind.defaultTypeName with
  | some type => if type.kind = .object then some kind.defaultTypeName else none
  | none => none

/-- The type that serves an operation. -/
def root? (document : Document σ) (kind : OperationKind) : Option String :=
  if document.schemaBlocks.isEmpty then document.conventionalRoot? kind
  else document.namedRoot? kind

theorem typeExtensions_append (definitions more : List (Definition σ)) :
    (Document.mk (definitions ++ more)).typeExtensions =
      (Document.mk definitions).typeExtensions ++ (Document.mk more).typeExtensions :=
  List.filterMap_append ..

theorem extensionBodies_append (definitions more : List (Definition σ)) (name : String) :
    (Document.mk (definitions ++ more)).extensionBodies name =
      (Document.mk definitions).extensionBodies name ++
        (Document.mk more).extensionBodies name := by
  rw [extensionBodies, typeExtensions_append, List.filter_append, List.map_append]
  rfl

/-- An extension extends the type of its name only. -/
theorem extensionBodies_singleton (declaration : TypeDeclaration σ) (name : String) :
    (Document.mk [.extendType declaration]).extensionBodies name =
      if declaration.name.value = name then [declaration.body] else [] := by
  by_cases hname : declaration.name.value = name <;>
    simp [extensionBodies, typeExtensions, hname]

theorem schemaBlocks_append (definitions more : List (Definition σ)) :
    (Document.mk (definitions ++ more)).schemaBlocks =
      (Document.mk definitions).schemaBlocks ++ (Document.mk more).schemaBlocks :=
  List.filterMap_append ..

end Document

namespace PendingType

/-- Bodies that are merged one after the other line up behind what there is. -/
theorem foldl_merge (pending : PendingType) (bodies : List (TypeBody σ)) :
    bodies.foldl merge pending =
      { pending with
        fields := pending.fields ++ bodies.flatMap TypeBody.fieldEntries
        interfaces := pending.interfaces ++
          bodies.flatMap fun body => body.interfaces.map (·.value)
        possibleTypes := pending.possibleTypes ++
          bodies.flatMap fun body => body.members.map (·.value)
        enumValues := pending.enumValues ++
          bodies.flatMap fun body => body.values.map (·.name.value) } := by
  induction bodies generalizing pending with
  | nil => simp
  | cons body bodies ih =>
    rw [List.foldl_cons, ih]
    simp [merge, TypeBody.fieldEntries]

/-- A type that is taken up from its definition, under its name. -/
def ofDefinition (defined : Option (Located σ String) × TypeDeclaration σ) :
    String × PendingType :=
  (defined.2.name.value,
    (new defined.2.kind (defined.1.map (·.value))).merge defined.2.body)

end PendingType

namespace Builder

/-- The first time through puts the types and directives defined under their names, in written
order. -/
theorem foldl_addDefinition (definitions : List (Definition σ)) (builder : Builder) :
    definitions.foldl addDefinition builder =
      { builder with
        types := ((Document.mk definitions).typeDefinitions.map PendingType.ofDefinition).foldl
          Roster.put builder.types
        directives := ((Document.mk definitions).directiveDefinitions.map
          DirectiveDeclaration.entry).foldl Roster.put builder.directives } := by
  induction definitions generalizing builder with
  | nil => rfl
  | cons definition definitions ih =>
    rw [List.foldl_cons, ih]
    cases definition <;> rfl

/-- What the second time through makes of a builder when it has gone through the definitions of a
document. -/
structure Merged (defined : Builder) (document : Document σ) (builder : Builder) : Prop where
  /-- The names of the types stay. -/
  names_types : builder.types.names = defined.types.names
  /-- The extensions of its name are merged into each type. -/
  get?_types : ∀ name, builder.types.get? name = (defined.types.get? name).map fun entry =>
    (entry.1, (document.extensionBodies entry.1).foldl PendingType.merge entry.2)
  /-- The directives stay. -/
  directives : builder.directives = defined.directives
  /-- The last type named for an operation counts. -/
  get_declaredRoots : ∀ kind, builder.declaredRoots.get kind =
    (document.namedRoot? kind).or (defined.declaredRoots.get kind)
  /-- It is known whether there was a schema block. -/
  hasSchemaDefinition : builder.hasSchemaDefinition =
    (!document.schemaBlocks.isEmpty || defined.hasSchemaDefinition)

/-- The last type that is named for an operation serves it. -/
theorem get_foldl_set (operations : List (RootOperation σ)) (roots : RootTypes)
    (kind : OperationKind) :
    (operations.foldl (fun roots root => roots.set root.operation.value root.type.value)
      roots).get kind = (((operations.filter (·.operation.value == kind)).getLast?).map
        (·.type.value)).or (roots.get kind) := by
  induction operations using List.reverseRecOn with
  | nil => rfl
  | append_singleton operations root ih =>
    rw [List.foldl_append, List.foldl_cons, List.foldl_nil, RootTypes.get_set, ih,
      List.filter_append]
    by_cases hkind : root.operation.value = kind <;> simp [hkind]

namespace Merged

variable {defined builder : Builder} {definitions : List (Definition σ)}
  {definition : Definition σ}

/-- Before the second time through nothing is merged. -/
theorem start (defined : Builder) : defined.Merged (⟨[]⟩ : Document σ) defined :=
  ⟨rfl, fun _ => (Option.map_id' ..).symm, rfl, fun _ => rfl, rfl⟩

/-- A definition of a type or directive is passed over. -/
theorem skip (h : defined.Merged ⟨definitions⟩ builder)
    (hextension : ∀ name, (Document.mk [definition]).extensionBodies name = [])
    (hschema : (Document.mk [definition]).schemaBlocks = []) :
    defined.Merged ⟨definitions ++ [definition]⟩ builder := by
  have hblocks : (Document.mk (definitions ++ [definition])).schemaBlocks =
      (Document.mk definitions).schemaBlocks := by
    rw [Document.schemaBlocks_append, hschema, List.append_nil]
  refine ⟨h.names_types, ?_, h.directives, ?_, ?_⟩
  · simpa only [Document.extensionBodies_append, hextension, List.append_nil] using h.get?_types
  · simpa only [Document.namedRoot?, hblocks] using h.get_declaredRoots
  · simpa only [hblocks] using h.hasSchemaDefinition

/-- An extension of a type that is defined is merged into the type. -/
theorem extendType {declaration : TypeDeclaration σ} {name : String} {pending : PendingType}
    (h : defined.Merged ⟨definitions⟩ builder)
    (hget : builder.types.get? declaration.name.value = some (name, pending)) :
    defined.Merged ⟨definitions ++ [.extendType declaration]⟩
      { builder with types := builder.types.put (name, pending.merge declaration.body) } := by
  obtain ⟨hmem, rfl⟩ := Roster.get?_eq_some_iff.mp hget
  have hblocks : (Document.mk (definitions ++ [.extendType declaration])).schemaBlocks =
      (Document.mk definitions).schemaBlocks := by
    rw [Document.schemaBlocks_append]
    exact List.append_nil _
  refine ⟨?_, fun name => ?_, h.directives, ?_, ?_⟩
  · have htaken : declaration.name.value ∈ builder.types.names := List.mem_map.mpr ⟨_, hmem, rfl⟩
    rw [Roster.names_put, Named.name_mk, if_pos htaken, h.names_types]
  · rw [Roster.get?_put, Named.name_mk]
    simp only [Document.extensionBodies_append, Document.extensionBodies_singleton]
    split
    next hname =>
      subst hname
      rw [h.get?_types] at hget
      obtain ⟨entry, hentry, hmerged⟩ := Option.map_eq_some_iff.mp hget
      obtain ⟨hname, hpending⟩ := Prod.mk.inj hmerged
      rw [hentry, Option.map_some, if_pos hname.symm, List.foldl_append, hpending, hname]
      rfl
    next hne =>
      rw [h.get?_types]
      refine Option.map_congr fun entry he => ?_
      have hother : ¬declaration.name.value = entry.1 := by
        rintro hname
        exact hne (hname.trans (Roster.get?_eq_some_iff.mp he).2)
      rw [if_neg hother, List.append_nil]
  · simpa only [Document.namedRoot?, hblocks] using h.get_declaredRoots
  · simpa only [hblocks] using h.hasSchemaDefinition

/-- The root types that a schema block names take the place of those named before. -/
theorem addSchema {block : SchemaBlock σ} (h : defined.Merged ⟨definitions⟩ builder)
    (hextension : ∀ name, (Document.mk [definition]).extensionBodies name = [])
    (hschema : (Document.mk [definition]).schemaBlocks = [block]) :
    defined.Merged ⟨definitions ++ [definition]⟩ (builder.addSchema block) := by
  have hblocks : (Document.mk (definitions ++ [definition])).schemaBlocks =
      (Document.mk definitions).schemaBlocks ++ [block] := by
    rw [Document.schemaBlocks_append, hschema]
  refine ⟨h.names_types, fun name => ?_, h.directives, fun kind => ?_, ?_⟩
  · simp only [Document.extensionBodies_append, hextension, List.append_nil]
    exact h.get?_types name
  · have hnamed : (Document.mk (definitions ++ [definition])).namedRoot? kind =
        (((block.operations.filter (·.operation.value == kind)).getLast?).map
          (·.type.value)).or ((Document.mk definitions).namedRoot? kind) := by
      rw [Document.namedRoot?, hblocks, List.flatMap_append, List.flatMap_singleton,
        List.filter_append, List.getLast?_append, Option.map_or]
      rfl
    rw [Builder.addSchema, get_foldl_set, h.get_declaredRoots, hnamed, Option.or_assoc]
  · simp [hblocks, Builder.addSchema]

/-- One more definition is merged, unless it extends a type that is not defined. -/
theorem step (h : defined.Merged ⟨definitions⟩ builder) (definition : Definition σ) :
    ((∀ extension ∈ (Document.mk [definition]).typeExtensions,
        extension.name.value ∈ defined.types.names) ∧
      ∃ next, builder.mergeDefinition definition = .ok next ∧
        defined.Merged ⟨definitions ++ [definition]⟩ next) ∨
    ∃ extension, definition = .extendType extension ∧
      extension.name.value ∉ defined.types.names ∧
        builder.mergeDefinition definition = .error ⟨extension.name⟩ := by
  cases definition with
  | schema description block =>
    exact .inl ⟨nofun, _, rfl, h.addSchema (fun _ => rfl) rfl⟩
  | extendSchema block => exact .inl ⟨nofun, _, rfl, h.addSchema (fun _ => rfl) rfl⟩
  | type description declaration => exact .inl ⟨nofun, _, rfl, h.skip (fun _ => rfl) rfl⟩
  | directive description declaration => exact .inl ⟨nofun, _, rfl, h.skip (fun _ => rfl) rfl⟩
  | extendType declaration =>
    have hnames : declaration.name.value ∈ defined.types.names ↔
        (builder.types.get? declaration.name.value).isSome := by
      rw [← h.names_types, ← Roster.contains_iff, Roster.contains]
    simp only [mergeDefinition, Builder.extendType]
    cases hget : builder.types.get? declaration.name.value with
    | none =>
      rw [hget] at hnames
      exact .inr ⟨declaration, rfl, by simp [hnames], rfl⟩
    | some found =>
      rw [hget] at hnames
      refine .inl ⟨fun extension he => ?_, _, rfl, h.extendType hget⟩
      obtain rfl : extension = declaration := List.mem_singleton.mp he
      exact hnames.mpr rfl

end Merged

/-- The second time through merges every extension, unless one has no type to extend. Then it stops
at the first such extension. -/
theorem foldlM_mergeDefinition (defined : Builder) (definitions : List (Definition σ)) :
    ((∀ extension ∈ (Document.mk definitions).typeExtensions,
        extension.name.value ∈ defined.types.names) ∧
      ∃ merged, definitions.foldlM mergeDefinition defined = .ok merged ∧
        defined.Merged ⟨definitions⟩ merged) ∨
    ∃ before extension after,
      (Document.mk definitions).typeExtensions = before ++ extension :: after ∧
      (∀ earlier ∈ before, earlier.name.value ∈ defined.types.names) ∧
      extension.name.value ∉ defined.types.names ∧
      definitions.foldlM mergeDefinition defined = .error ⟨extension.name⟩ := by
  induction definitions using List.reverseRecOn with
  | nil => exact .inl ⟨nofun, defined, rfl, .start defined⟩
  | append_singleton definitions definition ih =>
    rw [Document.typeExtensions_append, List.foldlM_append]
    rcases ih with
      ⟨hall, merged, hrun, hmerged⟩ | ⟨before, extension, after, he, hbefore, hnot, hrun⟩
    · rw [hrun]
      rcases hmerged.step definition with ⟨hone, next, hnext, hmerged⟩ |
        ⟨extension, rfl, hnot, hnext⟩
      · refine .inl ⟨List.forall_mem_append.mpr ⟨hall, hone⟩, next, ?_, hmerged⟩
        simp only [Bind.bind, Except.bind, List.foldlM_cons, hnext]
        rfl
      · refine .inr ⟨_, extension, [], rfl, hall, hnot, ?_⟩
        simp only [Bind.bind, Except.bind, List.foldlM_cons, hnext]
    · rw [hrun, he, List.append_assoc]
      exact .inr ⟨before, extension, _, rfl, hbefore, hnot, rfl⟩

end Builder

namespace Document

variable {document : Document σ}

theorem names_ownTypes : document.ownTypes.names = document.definedNames := by
  rw [ownTypes, Roster.names_ofList, List.map_map]
  rfl

/-- The entry of a type into which all its extensions are merged. -/
def complete (document : Document σ) (entry : String × PendingType) : TypeEntry :=
  ((document.extensionBodies entry.1).foldl PendingType.merge entry.2).entry entry.1

theorem name_complete (document : Document σ) (entry : String × PendingType) :
    Named.name (document.complete entry) = Named.name entry := rfl

/-- The entry of a definition is that of its type when the extensions have been merged. -/
theorem typeEntry_eq (document : Document σ)
    (defined : Option (Located σ String) × TypeDeclaration σ) :
    document.typeEntry defined = document.complete (PendingType.ofDefinition defined) := by
  rw [complete, PendingType.foldl_merge]
  simp [typeEntry, TypeEntry.ofBodies, PendingType.ofDefinition, PendingType.merge,
    PendingType.new, PendingType.entry, TypeBody.fieldEntries]

/-- The types of a document are those that the first time through puts under their names, with
their extensions. -/
theorem entries_ownTypes (document : Document σ) : document.ownTypes.entries =
    (Roster.ofList (document.typeDefinitions.map PendingType.ofDefinition)).entries.map
      document.complete := by
  rw [← Roster.entries_ofList_map document.name_complete, List.map_map, ownTypes,
    funext document.typeEntry_eq]
  rfl

end Document

namespace Builder.Merged

variable {document : Document σ} {defined merged : Builder}

/-- The types of the document are those of the builder, with their names. -/
theorem get?_ownTypes (h : defined.Merged document merged) (hdefined : defined.types =
      Roster.ofList (document.typeDefinitions.map PendingType.ofDefinition)) (name : String) :
    document.ownTypes.get? name =
      (merged.types.get? name).map fun entry => entry.2.entry entry.1 := by
  rw [h.get?_types, hdefined, Option.map_map,
    Roster.get?_of_entries_eq_map document.name_complete document.entries_ownTypes]
  rfl

/-- What the builder has when it has gone through a document twice are the types, directives and
root types of the document. -/
theorem finish_eq (h : defined.Merged document merged)
    (hdefined : defined = document.definitions.foldl addDefinition new) :
    merged.finish =
      { types := BuiltIn.types.foldl Roster.putIfNew document.ownTypes
        directives := (document.directiveDefinitions.map DirectiveDeclaration.entry).foldl
          Roster.put (Roster.ofList BuiltIn.directives)
        roots := .ofFunction document.root? } := by
  rw [foldl_addDefinition] at hdefined
  have htypes : defined.types =
      Roster.ofList (document.typeDefinitions.map PendingType.ofDefinition) := by rw [hdefined]; rfl
  have hget := h.get?_ownTypes htypes
  have hown : Roster.ofList (merged.types.entries.map fun entry => entry.2.entry entry.1) =
      document.ownTypes := by
    have hname (entry : String × PendingType) :
        Named.name (entry.2.entry entry.1) = Named.name entry := rfl
    have hentries := Roster.entries_ofList_map hname merged.types.entries
    rw [Roster.entries_ofList merged.types.nodup] at hentries
    refine Roster.ext_get? ?_ fun name => ?_
    · rw [Roster.names_of_entries_eq_map hname hentries, h.names_types, htypes,
        ← Roster.names_of_entries_eq_map document.name_complete document.entries_ownTypes]
    · rw [Roster.get?_of_entries_eq_map hname hentries, hget]
  have hschema : merged.hasSchemaDefinition = !document.schemaBlocks.isEmpty := by
    rw [h.hasSchemaDefinition, hdefined]
    exact Bool.or_false _
  have hroot (kind : OperationKind) : merged.root? kind = document.root? kind := by
    have hnamed : merged.declaredRoots.get kind = document.namedRoot? kind := by
      rw [h.get_declaredRoots, hdefined]
      cases kind <;> exact Option.or_none
    rw [root?, Document.root?, Document.conventionalRoot?, hschema, hnamed, hget]
    cases document.schemaBlocks.isEmpty with
    | false => rfl
    | true => cases merged.types.get? kind.defaultTypeName <;> rfl
  rw [finish, finishTypes, hown, h.directives, hdefined, funext hroot]
  rfl

end Builder.Merged

/-- A document that extends only types that it defines is assembled from its types, directives and
root types. The first extension of any other type is what it is refused for. -/
theorem Document.assemble_eq (document : Document σ) :
    ((∀ extension ∈ document.typeExtensions, extension.name.value ∈ document.definedNames) ∧
      document.assemble = .ok
        { types := BuiltIn.types.foldl Roster.putIfNew document.ownTypes
          directives := (document.directiveDefinitions.map DirectiveDeclaration.entry).foldl
            Roster.put (Roster.ofList BuiltIn.directives)
          roots := .ofFunction document.root? }) ∨
    ∃ before extension after, document.typeExtensions = before ++ extension :: after ∧
      (∀ earlier ∈ before, earlier.name.value ∈ document.definedNames) ∧
      extension.name.value ∉ document.definedNames ∧
      document.assemble = .error ⟨extension.name⟩ := by
  have hnames : (document.definitions.foldl Builder.addDefinition .new).types.names =
      document.definedNames := by
    rw [Builder.foldl_addDefinition, ← document.names_ownTypes,
      Roster.names_of_entries_eq_map document.name_complete document.entries_ownTypes]
    rfl
  rcases Builder.foldlM_mergeDefinition (document.definitions.foldl Builder.addDefinition .new)
    document.definitions with ⟨hall, merged, hrun, hmerged⟩ |
      ⟨before, extension, after, he, hbefore, hnot, hrun⟩
  · rw [hnames] at hall
    refine .inl ⟨hall, ?_⟩
    simp only [assemble, hrun, Bind.bind, Except.bind, hmerged.finish_eq rfl]
    rfl
  · rw [hnames] at hbefore hnot
    refine .inr ⟨before, extension, after, he, hbefore, hnot, ?_⟩
    simp only [assemble, hrun, Bind.bind, Except.bind]

end SdlGraph
