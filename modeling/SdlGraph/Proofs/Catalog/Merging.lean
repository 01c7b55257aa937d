import SdlGraph.Proofs.Catalog.Contents
import SdlGraph.Proofs.Keyed

/-!
# What becomes of the definitions of a document

The catalog of a document, sound or not, has one entry for each name defined, in order of first
definition, made from the last definition of the name and from all its extensions in written order.
What is built in fills the names that are left. Only an extension of a name without any definition
keeps a document from having a catalog.
-/

namespace SdlGraph

variable {σ : Type}

namespace Document

/-- An entry is what a document says of a type of some name: the kind and the description of the
last definition of the name, and the parts of that definition followed by those of all extensions of
the name. Fields keep their names, types and descriptions, and arguments their default values as
written; fields of input object types become fields without arguments. -/
structure Merges (document : Document σ) (name : String) (entry : TypeEntry) : Prop where
  /-- The definition that counts, and what the entry takes from it. -/
  definition : ∃ defined, LastOf (·.2.name.value) document.typeDefinitions name defined ∧
    entry.kind = defined.2.body.kind ∧ entry.description = defined.1.map (·.value) ∧
      ∃ bodies, bodies = defined.2.body ::
          (document.typeExtensions.filter (·.name.value == name)).map (·.body) ∧
        entry.interfaces = (bodies.flatMap (·.interfaces)).map (·.value) ∧
        entry.possibleTypes = (bodies.flatMap (·.members)).map (·.value) ∧
        entry.enumValues = (bodies.flatMap (·.values)).map (·.name.value) ∧
        entry.fields = bodies.flatMap fun body =>
          (body.fields.map fun field =>
            { name := field.name.value
              type := field.type.type
              arguments := field.arguments.map fun argument =>
                { name := argument.name.value
                  type := argument.type.type
                  default := argument.default.map (·.value.render)
                  description := argument.description.map (·.value) }
              description := field.description.map (·.value) }) ++
          body.inputFields.map fun field =>
            { name := field.name.value
              type := field.type.type
              arguments := []
              description := field.description.map (·.value) }
  /-- The entry has the name. -/
  name : entry.name = name
  /-- The entry is not built in. -/
  isBuiltIn : entry.isBuiltIn = false

/-- An entry is what a document says of a directive of some name: the last definition of the name
with its arguments as written, or else the built-in directive of that name. -/
def MergesDirective (document : Document σ) (name : String) (entry : DirectiveEntry) : Prop :=
  (∃ declaration, LastOf (·.name.value) document.directiveDefinitions name declaration ∧
    entry =
      { name := name
        locations := declaration.locations.map (·.value)
        arguments := declaration.arguments.map fun argument =>
          { name := argument.name.value
            type := argument.type.type
            default := argument.default.map (·.value.render)
            description := argument.description.map (·.value) }
        isRepeatable := declaration.isRepeatable
        isBuiltIn := false }) ∨
    (∀ declaration ∈ document.directiveDefinitions, declaration.name.value ≠ name) ∧
      entry ∈ BuiltIn.directives ∧ entry.name = name

end Document

/-- A catalog holds what a document says, in order. -/
structure Catalog.Collects (catalog : Catalog) (document : Document σ) : Prop where
  /-- The types are those defined, in order of first definition, followed by the built-in scalar
  types and the introspection types whose names are not defined. -/
  types : ∃ own, catalog.types.entries = own ++
      (BuiltIn.scalarTypes ++ BuiltIn.introspection).filter (·.name ∉ document.definedNames) ∧
    List.Forall₂ document.Merges document.definedNames own
  /-- A type is built in exactly if the document does not define it. -/
  isBuiltIn : ∀ type ∈ catalog.types.entries,
    type.isBuiltIn = true ↔ type.name ∉ document.definedNames
  /-- The directives are those built in and those defined, in order of first mention. -/
  directives : List.Forall₂ document.MergesDirective
    (BuiltIn.directives.map (·.name) ++
      document.directiveDefinitions.map (·.name.value)).eraseDups catalog.directives.entries

namespace Document

variable {document : Document σ}

theorem mem_definedNames {name : String} : name ∈ document.definedNames ↔
    ∃ defined ∈ document.typeDefinitions, defined.2.name.value = name := by
  rw [definedNames, List.mem_eraseDups, List.mem_map]

/-- The entry made from a definition and the extensions of its name. -/
theorem merges_typeEntry {defined : Option (Located σ String) × TypeDeclaration σ}
    (h : LastOf (·.2.name.value) document.typeDefinitions defined.2.name.value defined) :
    document.Merges defined.2.name.value (document.typeEntry defined) where
  definition := by
    refine ⟨defined, h, rfl, rfl, _, rfl, ?_, ?_, ?_, rfl⟩ <;>
      simp [typeEntry, extensionBodies, TypeEntry.ofBodies, List.map_flatMap]
  name := rfl
  isBuiltIn := rfl

/-- Every type of the document itself is what the document says of its name. -/
theorem merges_of_mem_ownTypes {entry : TypeEntry} (h : entry ∈ document.ownTypes.entries) :
    document.Merges entry.name entry := by
  obtain ⟨defined, hlast, rfl⟩ := LastOf.map_iff.mp (Roster.mem_ofList.mp h)
  exact merges_typeEntry hlast

/-- The document has a type of its own for each name that it defines. -/
theorem contains_ownTypes {name : String} :
    document.ownTypes.contains name = decide (name ∈ document.definedNames) := by
  rw [Bool.eq_iff_iff, Roster.contains_iff, names_ownTypes, decide_eq_true_iff]

/-- The types of a catalog, whatever the document: those defined, then the built-in ones whose
names are not. -/
theorem entries_types_of_assemble {catalog : Catalog} (h : document.assemble = .ok catalog) :
    catalog.types.entries = document.ownTypes.entries ++
      BuiltIn.types.filter (·.name ∉ document.definedNames) := by
  rw [entries_types h]
  congr 1
  apply List.filter_congr
  intro type _
  rw [contains_ownTypes, decide_not]

/-- The directives of a catalog, whatever the document: the built-in ones and then those defined
are put under their names. -/
theorem directives_of_assemble {catalog : Catalog} (h : document.assemble = .ok catalog) :
    catalog.directives = Roster.ofList (BuiltIn.directives ++
      document.directiveDefinitions.map DirectiveDeclaration.entry) := by
  rw [(assemble_eq_ok h).2.1, Roster.ofList, Roster.ofList, List.foldl_append]

/-- Every directive of a catalog is what its document says of its name. -/
theorem mergesDirective_of_assemble {catalog : Catalog} (h : document.assemble = .ok catalog)
    {entry : DirectiveEntry} (he : entry ∈ catalog.directives.entries) :
    document.MergesDirective entry.name entry := by
  rw [directives_of_assemble h] at he
  rcases LastOf.append_iff.mp (Roster.mem_ofList.mp he) with hown | ⟨hbuiltIn, hnone⟩
  · obtain ⟨declaration, hlast, rfl⟩ := LastOf.map_iff.mp hown
    exact .inl ⟨declaration, hlast, rfl⟩
  · refine .inr ⟨?_, hbuiltIn.mem, rfl⟩
    intro declaration hd
    exact hnone declaration.entry (List.mem_map_of_mem hd)

/-- The catalog of a document holds what the document says, in order. -/
theorem collects_of_assemble {catalog : Catalog} (h : document.assemble = .ok catalog) :
    catalog.Collects document where
  types := by
    refine ⟨document.ownTypes.entries, entries_types_of_assemble h, ?_⟩
    rw [← names_ownTypes, Roster.names, List.forall₂_map_left_iff, List.forall₂_same]
    exact fun entry he => merges_of_mem_ownTypes he
  isBuiltIn := by
    intro type ht
    rw [entries_types_of_assemble h, List.mem_append, List.mem_filter, decide_eq_true_iff] at ht
    rcases ht with ht | ⟨ht, hname⟩
    · have hm : type.name ∈ document.definedNames := by
        rw [← names_ownTypes]
        exact List.mem_map_of_mem ht
      simp [(merges_of_mem_ownTypes ht).isBuiltIn, hm]
    · have hall : ∀ type ∈ BuiltIn.types, type.isBuiltIn = true := by decide
      simp [hall type ht, hname]
  directives := by
    have hnames : (BuiltIn.directives.map (·.name) ++
        document.directiveDefinitions.map (·.name.value)).eraseDups = catalog.directives.names := by
      rw [directives_of_assemble h, Roster.names_ofList, List.map_append, List.map_map]
      rfl
    rw [hnames, Roster.names, List.forall₂_map_left_iff, List.forall₂_same]
    exact fun entry he => mergesDirective_of_assemble h he

/-- A sound document has a catalog. -/
theorem Sound.exists_catalog (hsound : document.Sound) :
    ∃ catalog, document.assemble = .ok catalog := by
  rcases document.assemble_eq with ⟨-, hok⟩ | ⟨before, extension, after, he, -, hnot, -⟩
  · exact ⟨_, hok⟩
  · have hextension : extension ∈ document.typeExtensions :=
      he ▸ List.mem_append_right before List.mem_cons_self
    obtain ⟨defined, hd, hname, -⟩ := hsound.extensions_fit extension hextension
    exact absurd (mem_definedNames.mpr ⟨defined, hd, hname⟩) hnot

/-- A document, sound or not, has no catalog exactly if it extends a type that it does not define.
What it is refused for is then the first such extension, at its name. Otherwise its catalog holds
what the document says, in order. -/
theorem assemble_exact (document : Document σ) :
    ((∃ missing, document.assemble = .error missing) ↔
      ∃ extension ∈ document.typeExtensions,
        extension.name.value ∉ document.definedNames) ∧
    (∀ missing, document.assemble = .error missing →
      ∃ before extension after, document.typeExtensions = before ++ extension :: after ∧
        (∀ earlier ∈ before, earlier.name.value ∈ document.definedNames) ∧
        extension.name.value ∉ document.definedNames ∧
        missing.diagnostic.code.map (·.text) = some "E300" ∧
        missing.diagnostic.message =
          "cannot extend undefined type `" ++ extension.name.value ++ "`" ∧
        missing.diagnostic.labels = [.primary extension.name.place "extension target missing"]) ∧
    ∀ catalog, document.assemble = .ok catalog → catalog.Collects document := by
  rcases document.assemble_eq with
    ⟨hall, hok⟩ | ⟨before, extension, after, he, hbefore, hnot, herror⟩
  · refine ⟨iff_of_false ?_ ?_, fun missing h => ?_, fun catalog h => collects_of_assemble h⟩
    · rintro ⟨missing, h⟩
      cases hok.symm.trans h
    · rintro ⟨extension, hextension, hnot⟩
      exact hnot (hall extension hextension)
    · cases hok.symm.trans h
  · have hextension : extension ∈ document.typeExtensions :=
      he ▸ List.mem_append_right before List.mem_cons_self
    refine ⟨iff_of_true ⟨_, herror⟩ ⟨extension, hextension, hnot⟩, fun missing h => ?_,
      fun catalog h => collects_of_assemble h⟩
    obtain rfl := Except.error.inj (herror.symm.trans h)
    exact ⟨before, extension, after, he, hbefore, hnot, rfl, rfl, rfl⟩

/-- A scalar type defined again as a union has a catalog, with the extension before both. -/
theorem assemble_exact_redefined :
    let document : Document Unit :=
      ⟨[.extendType ⟨⟨"A", ()⟩, [], .enum [⟨none, ⟨"V", ()⟩, []⟩], ()⟩,
        .type none ⟨⟨"A", ()⟩, [], .scalar, ()⟩,
        .type (some ⟨"last", ()⟩) ⟨⟨"A", ()⟩, [], .union [⟨"Int", ()⟩], ()⟩]⟩
    ∃ catalog, document.assemble = .ok catalog ∧ catalog.Collects document := by
  intro document
  refine ⟨_, rfl, ?_⟩
  exact (assemble_exact _).2.2 _ rfl

end Document

end SdlGraph
