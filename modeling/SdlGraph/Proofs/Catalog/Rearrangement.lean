import SdlGraph.Proofs.Catalog.Merging
import SdlGraph.Proofs.Catalog.Roots

/-!
# The order of definitions

The definitions of types, those of directives, and the extensions of each type keep their order when
a document is rearranged; everything else may move, also an extension to a place before what it
extends. Whether a document is sound does not depend on any order. Its catalog is made from the
parts that keep their order and from root operations, each of which a sound document names once. So
a sound document may be rearranged, and its catalog stays the same.
-/

namespace SdlGraph

variable {σ : Type}

/-- Definitions that keep their order among each other. -/
inductive Strand where
  /-- The definitions of types. -/
  | types
  /-- The definitions of directives. -/
  | directives
  /-- The extensions of the type of a name. -/
  | extensions (name : String)
  deriving DecidableEq

/-- The strand that a definition belongs to. The blocks of the schema belong to none. -/
def Definition.strand? : Definition σ → Option Strand
  | schema _ _ => none
  | extendSchema _ => none
  | type _ _ => some .types
  | extendType declaration => some (.extensions declaration.name.value)
  | directive _ _ => some .directives

namespace Document

/-- The definitions of a strand, in written order. -/
def strand (document : Document σ) (strand : Strand) : Document σ :=
  ⟨document.definitions.filter (·.strand? = some strand)⟩

/-- Two documents have the same definitions, and those of each strand in the same order. -/
structure Rearranges (document other : Document σ) : Prop where
  /-- The definitions are the same. -/
  perm : document.definitions.Perm other.definitions
  /-- Each strand keeps its order. -/
  strand_eq : ∀ strand, document.strand strand = other.strand strand

variable {document other : Document σ}

/-- The type definitions are those of their strand. -/
theorem typeDefinitions_strand :
    (document.strand .types).typeDefinitions = document.typeDefinitions := by
  simp only [typeDefinitions, strand, List.filterMap_filter]
  refine List.filterMap_congr fun definition _ => ?_
  cases definition <;> simp [Definition.strand?]

/-- The directive definitions are those of their strand. -/
theorem directiveDefinitions_strand :
    (document.strand .directives).directiveDefinitions = document.directiveDefinitions := by
  simp only [directiveDefinitions, strand, List.filterMap_filter]
  refine List.filterMap_congr fun definition _ => ?_
  cases definition <;> simp [Definition.strand?]

/-- The extensions of a type are those of its strand. -/
theorem typeExtensions_strand (name : String) :
    (document.strand (.extensions name)).typeExtensions =
      document.typeExtensions.filter (·.name.value == name) := by
  simp only [typeExtensions, strand, List.filterMap_filter, List.filter_filterMap]
  refine List.filterMap_congr fun definition _ => ?_
  cases definition with
  | extendType declaration =>
    by_cases hname : declaration.name.value = name <;>
      simp [Definition.strand?, Option.filter, hname]
  | _ => simp [Definition.strand?]

section Subset

variable (hsub : document.definitions ⊆ other.definitions)

include hsub

theorem schemaBlocks_subset : document.schemaBlocks ⊆ other.schemaBlocks :=
  List.filterMap_subset _ hsub

theorem typeDefinitions_subset : document.typeDefinitions ⊆ other.typeDefinitions :=
  List.filterMap_subset _ hsub

theorem typeExtensions_subset : document.typeExtensions ⊆ other.typeExtensions :=
  List.filterMap_subset _ hsub

theorem directiveDefinitions_subset :
    document.directiveDefinitions ⊆ other.directiveDefinitions :=
  List.filterMap_subset _ hsub

theorem typeDeclarations_subset : document.typeDeclarations ⊆ other.typeDeclarations :=
  List.filterMap_subset _ hsub

theorem operations_subset : document.operations ⊆ other.operations := by
  intro root hr
  obtain ⟨definition, hd, hroot⟩ := List.mem_flatMap.mp hr
  exact List.mem_flatMap.mpr ⟨definition, hsub hd, hroot⟩

/-- What is applied in some definitions is applied in more of them. -/
theorem Applies.mono {use : DirectiveUse σ} {location : DirectiveLocation}
    (h : document.Applies use location) : other.Applies use location := by
  cases h with
  | schema hb hu => exact .schema (schemaBlocks_subset hsub hb) hu
  | type hd hu => exact .type (typeDeclarations_subset hsub hd) hu
  | field hd hf hu => exact .field (typeDeclarations_subset hsub hd) hf hu
  | fieldArgument hd hf ha hu =>
    exact .fieldArgument (typeDeclarations_subset hsub hd) hf ha hu
  | inputField hd hf hu => exact .inputField (typeDeclarations_subset hsub hd) hf hu
  | enumValue hd hv hu => exact .enumValue (typeDeclarations_subset hsub hd) hv hu
  | directiveArgument hd ha hu =>
    exact .directiveArgument (directiveDefinitions_subset hsub hd) ha hu

theorem Mentions.mono {name : String} (h : document.Mentions name) : other.Mentions name := by
  cases h with
  | field hd hf => exact .field (typeDeclarations_subset hsub hd) hf
  | fieldArgument hd hf ha => exact .fieldArgument (typeDeclarations_subset hsub hd) hf ha
  | inputField hd hf => exact .inputField (typeDeclarations_subset hsub hd) hf
  | directiveArgument hd ha => exact .directiveArgument (directiveDefinitions_subset hsub hd) ha
  | interface hd hn => exact .interface (typeDeclarations_subset hsub hd) hn
  | member hd hn => exact .member (typeDeclarations_subset hsub hd) hn

theorem HasArguments.mono {names : List String} (h : document.HasArguments names) :
    other.HasArguments names := by
  cases h with
  | field hd hf => exact .field (typeDeclarations_subset hsub hd) hf
  | directive hd => exact .directive (directiveDefinitions_subset hsub hd)
  | application h => exact .application (h.mono hsub)

theorem Knows.mono {name : String} (h : document.Knows name) : other.Knows name :=
  h.imp_left fun ⟨defined, hd, hname⟩ => ⟨defined, typeDefinitions_subset hsub hd, hname⟩

theorem Allows.mono {name : String} {location : DirectiveLocation}
    (h : document.Allows name location) : other.Allows name location :=
  h.imp_right fun ⟨declaration, hd, ha⟩ =>
    ⟨declaration, directiveDefinitions_subset hsub hd, ha⟩

end Subset

/-- A sound document is sound in any order. -/
theorem Sound.of_perm (hsound : document.Sound)
    (h : document.definitions.Perm other.definitions) : other.Sound where
  types_nodup := ((h.filterMap _).map _).nodup_iff.mp hsound.types_nodup
  types_not_introspection := fun defined hd =>
    hsound.types_not_introspection defined (typeDefinitions_subset h.symm.subset hd)
  types_scalar := fun defined hd =>
    hsound.types_scalar defined (typeDefinitions_subset h.symm.subset hd)
  directives_nodup := ((h.filterMap _).map _).nodup_iff.mp hsound.directives_nodup
  directives_not_builtIn := fun declaration hd =>
    hsound.directives_not_builtIn declaration (directiveDefinitions_subset h.symm.subset hd)
  members_nodup := fun name => (h.flatMap_right _).nodup_iff.mp (hsound.members_nodup name)
  arguments_nodup := fun names hnames =>
    hsound.arguments_nodup names (hnames.mono h.symm.subset)
  types_known := fun name hname =>
    (hsound.types_known name (hname.mono h.symm.subset)).mono h.subset
  directives_allowed := fun use location huse =>
    (hsound.directives_allowed use location (huse.mono h.symm.subset)).mono h.subset
  schema_unique := (h.filterMap _).length_eq ▸ hsound.schema_unique
  operations_nodup := ((h.flatMap_right _).map _).nodup_iff.mp hsound.operations_nodup
  roots_object := fun root hr =>
    let ⟨defined, hd, hdefined⟩ := hsound.roots_object root (operations_subset h.symm.subset hr)
    ⟨defined, typeDefinitions_subset h.subset hd, hdefined⟩
  extensions_fit := fun extension he =>
    let ⟨defined, hd, hdefined⟩ :=
      hsound.extensions_fit extension (typeExtensions_subset h.symm.subset he)
    ⟨defined, typeDefinitions_subset h.subset hd, hdefined⟩

namespace Rearranges

variable (h : document.Rearranges other)

include h

theorem typeDefinitions_eq : document.typeDefinitions = other.typeDefinitions := by
  rw [← typeDefinitions_strand, h.strand_eq, typeDefinitions_strand]

theorem directiveDefinitions_eq :
    document.directiveDefinitions = other.directiveDefinitions := by
  rw [← directiveDefinitions_strand, h.strand_eq, directiveDefinitions_strand]

theorem typeExtensions_filter_eq (name : String) :
    document.typeExtensions.filter (·.name.value == name) =
      other.typeExtensions.filter (·.name.value == name) := by
  rw [← typeExtensions_strand, h.strand_eq, typeExtensions_strand]

/-- The types come in the same order and have the same members in the same order. -/
theorem ownTypes_eq : document.ownTypes = other.ownTypes := by
  have hentry : document.typeEntry = other.typeEntry := by
    funext defined
    rw [typeEntry, typeEntry, extensionBodies, extensionBodies, h.typeExtensions_filter_eq]
  rw [ownTypes, ownTypes, h.typeDefinitions_eq, hentry]

/-- The type that the schema blocks name for an operation does not depend on their order. -/
theorem namedRoot?_eq (hsound : document.Sound) (kind : OperationKind) :
    document.namedRoot? kind = other.namedRoot? kind := by
  by_cases hnamed : document.NamesRoot kind
  · obtain ⟨root, hr, rfl⟩ := hnamed
    have hr' : root ∈ other.operations := operations_subset h.perm.subset hr
    rw [hsound.namedRoot?_eq_some hr, (hsound.of_perm h.perm).namedRoot?_eq_some hr']
  · have hnamed' : ¬other.NamesRoot kind := by
      rintro ⟨root, hr, hkind⟩
      exact hnamed ⟨root, operations_subset h.perm.symm.subset hr, hkind⟩
    rw [namedRoot?_eq_none hnamed, namedRoot?_eq_none hnamed']

theorem root?_eq (hsound : document.Sound) : document.root? = other.root? := by
  funext kind
  have hempty : document.schemaBlocks.isEmpty = other.schemaBlocks.isEmpty :=
    (h.perm.filterMap _).isEmpty_eq
  rw [root?, root?, hempty, h.namedRoot?_eq hsound, conventionalRoot?, conventionalRoot?,
    h.ownTypes_eq]

/-- A sound document can be rearranged without a change to its catalog. -/
theorem assemble_eq (hsound : document.Sound) : document.assemble = other.assemble := by
  obtain ⟨catalog, hcatalog⟩ := hsound.exists_catalog
  obtain ⟨other', hother⟩ := (hsound.of_perm h.perm).exists_catalog
  obtain ⟨htypes, hdirectives, hroots⟩ := assemble_eq_ok hcatalog
  obtain ⟨htypes', hdirectives', hroots'⟩ := assemble_eq_ok hother
  rw [hcatalog, hother, Except.ok.injEq, Catalog.ext_iff, htypes, htypes', hdirectives,
    hdirectives', hroots, hroots', h.ownTypes_eq, h.directiveDefinitions_eq, h.root?_eq hsound]
  exact ⟨rfl, rfl, rfl⟩

end Rearranges

end Document

/-- A document that is accepted is also accepted when it is rearranged, and both have the same
catalog. -/
theorem SignificantTokens.assemble_rearranged {source : SignificantTokens}
    {document other : Document Extent} (h : document.Rearranges other)
    (hcheck : source.check document = .ok ()) : source.check other = .ok () ∧
      ∃ catalog, source.assemble document = .ok catalog ∧ source.assemble other = .ok catalog := by
  rw [check_eq_ok_iff_findings, Document.findings_eq_nil_iff] at hcheck ⊢
  obtain ⟨catalog, hcatalog⟩ := hcheck.exists_catalog
  refine ⟨hcheck.of_perm h.perm, catalog, ?_, ?_⟩
  · rw [assemble, hcatalog]
  · rw [assemble, ← h.assemble_eq hcheck, hcatalog]

/-- Extensions of two types and the schema move before the types they are about. -/
theorem SignificantTokens.assemble_rearranged_extensions_first :
    let name (text : String) (index : Nat) : Located Extent String := ⟨text, ⟨index, index + 1⟩⟩
    let field (text : String) (index : Nat) : Field Extent :=
      ⟨none, name text index, [], ⟨.named "Int", ⟨index + 2, index + 3⟩, ⟨index + 2, index + 3⟩⟩,
        []⟩
    let types : List (Definition Extent) :=
      [.type none ⟨name "A" 1, [], .object [] [field "a" 3], ⟨0, 7⟩⟩,
        .type none ⟨name "B" 8, [], .enum [⟨none, name "V" 10, []⟩], ⟨7, 12⟩⟩]
    let others : List (Definition Extent) :=
      [.extendType ⟨name "B" 14, [], .enum [⟨none, name "W" 16, []⟩], ⟨12, 18⟩⟩,
        .schema none ⟨[], [⟨⟨.query, ⟨20, 21⟩⟩, name "A" 22⟩], ⟨18, 24⟩⟩,
        .extendType ⟨name "A" 26, [], .object [] [field "b" 28], ⟨24, 32⟩⟩]
    let source : SignificantTokens := ⟨[]⟩
    (Document.mk (types ++ others)).Rearranges ⟨others ++ types⟩ ∧
      source.check ⟨types ++ others⟩ = .ok () ∧ source.check ⟨others ++ types⟩ = .ok () ∧
      ∃ catalog, source.assemble ⟨types ++ others⟩ = .ok catalog ∧
        source.assemble ⟨others ++ types⟩ = .ok catalog := by
  intro name field types others source
  have hrearranges : (Document.mk (types ++ others)).Rearranges ⟨others ++ types⟩ := by
    refine ⟨List.perm_append_comm, fun strand => ?_⟩
    rw [Document.strand, Document.strand, List.filter_append, List.filter_append]
    cases strand with
    | types => rfl
    | directives => rfl
    | extensions name => exact congrArg Document.mk (List.append_nil _).symm
  have hcheck : source.check ⟨types ++ others⟩ = .ok () := by rfl
  exact ⟨hrearranges, hcheck, assemble_rearranged hrearranges hcheck⟩

end SdlGraph
