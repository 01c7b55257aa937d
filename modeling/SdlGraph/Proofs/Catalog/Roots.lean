import SdlGraph.Proofs.Catalog.Contents
import SdlGraph.Proofs.Keyed

/-!
# Root types

A root operation is served by the type that a schema definition or extension names for it. An
operation that none names is served by the object type of its conventional name, unless these names
are withheld. They are meant to be withheld only by a schema definition, but a schema extension
withholds them too, even one that names no operation.
-/

namespace SdlGraph

variable {σ : Type}

namespace Document

/-- A document has a schema definition, which is not an extension. -/
def DefinesSchema (document : Document σ) : Prop :=
  ∃ description block, Definition.schema description block ∈ document.definitions

/-- A document defines an object type of a name. -/
def DefinesObject (document : Document σ) (name : String) : Prop :=
  ∃ defined ∈ document.typeDefinitions,
    defined.2.name.value = name ∧ defined.2.kind = .object

/-- A schema definition or extension names an operation. -/
def NamesRoot (document : Document σ) (kind : OperationKind) : Prop :=
  ∃ root ∈ document.operations, root.operation.value = kind

/-- The rule for root types, where the conventional names may be withheld. -/
structure RootsFollow (document : Document σ) (withheld : Prop) (roots : RootTypes) : Prop where
  /-- An operation that is named has the type named for it. -/
  named : ∀ root ∈ document.operations,
    roots.get root.operation.value = some root.type.value
  /-- No other operation has a type where the conventional names are withheld. -/
  absent : withheld → ∀ kind, ¬document.NamesRoot kind → roots.get kind = none
  /-- Otherwise it has the object type of its conventional name, if there is one. -/
  conventional : ¬withheld → ∀ kind, ¬document.NamesRoot kind → ∀ name,
    roots.get kind = some name ↔ name = kind.defaultTypeName ∧ document.DefinesObject name

variable {document : Document σ} {kind : OperationKind} {name : String}

/-- The operations named are those of the schema blocks. -/
theorem operations_eq_flatMap :
    document.operations = document.schemaBlocks.flatMap (·.operations) := by
  rw [operations, schemaBlocks]
  induction document.definitions with
  | nil => rfl
  | cons definition rest ih =>
    cases definition <;> simp [ih, Definition.operations]

/-- A schema definition is a schema block. -/
theorem DefinesSchema.schemaBlocks_ne_nil (h : document.DefinesSchema) :
    document.schemaBlocks ≠ [] := by
  obtain ⟨description, block, hd⟩ := h
  exact List.ne_nil_of_mem (mem_schemaBlocks.mpr (.inl ⟨description, hd⟩))

/-- No type is named for an operation that no schema block names. -/
theorem namedRoot?_eq_none (h : ¬document.NamesRoot kind) :
    document.namedRoot? kind = none := by
  have hnone : document.operations.filter (fun root => root.operation.value == kind) = [] := by
    rw [List.filter_eq_nil_iff]
    exact fun root hr he => h ⟨root, hr, by simpa using he⟩
  rw [namedRoot?, ← operations_eq_flatMap, hnone]
  rfl

/-- Where no operation is named twice, the type named for one is the only one. -/
theorem Sound.namedRoot?_eq_some (hsound : document.Sound) {root : RootOperation σ}
    (hr : root ∈ document.operations) :
    document.namedRoot? root.operation.value = some root.type.value := by
  have honly : (document.operations.filter fun other =>
      other.operation.value == root.operation.value) = [root] :=
    filter_key_eq_singleton hsound.operations_nodup hr
  rw [namedRoot?, ← operations_eq_flatMap, honly]
  rfl

/-- The conventional name serves an operation if its type is an object type. -/
theorem conventionalRoot?_eq_some_iff : document.conventionalRoot? kind = some name ↔
    ∃ type, document.ownTypes.get? kind.defaultTypeName = some type ∧
      type.kind = .object ∧ kind.defaultTypeName = name := by
  unfold conventionalRoot?
  split
  next type htype => simp [htype]
  next hnone => simp [hnone]

/-- Where no type is defined twice, the type of a name is the entry of its definition. -/
theorem Sound.get?_ownTypes (hsound : document.Sound) {type : TypeEntry} :
    document.ownTypes.get? name = some type ↔ ∃ defined ∈ document.typeDefinitions,
      defined.2.name.value = name ∧ document.typeEntry defined = type := by
  rw [Roster.get?_eq_some_iff, hsound.entries_ownTypes, List.mem_map]
  constructor
  · rintro ⟨⟨defined, hd, rfl⟩, hname⟩
    exact ⟨defined, hd, hname, rfl⟩
  · rintro ⟨defined, hd, hname, rfl⟩
    exact ⟨⟨defined, hd, rfl⟩, hname⟩

/-- The conventional name serves an operation exactly if it is that of an object type. -/
theorem Sound.conventionalRoot?_iff (hsound : document.Sound) :
    document.conventionalRoot? kind = some name ↔
      name = kind.defaultTypeName ∧ document.DefinesObject name := by
  rw [conventionalRoot?_eq_some_iff]
  constructor
  · rintro ⟨type, htype, hkind, rfl⟩
    obtain ⟨defined, hd, hname, rfl⟩ := hsound.get?_ownTypes.mp htype
    exact ⟨rfl, defined, hd, hname, hkind⟩
  · rintro ⟨rfl, defined, hd, hname, hkind⟩
    exact ⟨_, hsound.get?_ownTypes.mpr ⟨defined, hd, hname, rfl⟩, hkind, rfl⟩

/-- The root types of a sound document follow the rule, but extensions of the schema withhold the
conventional names as well. -/
theorem Sound.rootsFollow (hsound : document.Sound) {catalog : Catalog}
    (h : document.assemble = .ok catalog) :
    document.RootsFollow (document.schemaBlocks ≠ []) catalog.roots where
  named := by
    intro root hr
    have hne : document.schemaBlocks ≠ [] := by
      rintro hnil
      simp [operations_eq_flatMap, hnil] at hr
    rw [get_roots h, root?, if_neg (by simpa using hne)]
    exact hsound.namedRoot?_eq_some hr
  absent := by
    intro hne kind hkind
    rw [get_roots h, root?, if_neg (by simpa using hne)]
    exact namedRoot?_eq_none hkind
  conventional := by
    intro hnil kind _ name
    rw [get_roots h, root?, if_pos (by simpa using hnil)]
    exact hsound.conventionalRoot?_iff

/-- The rule with the conventional names withheld by schema definitions only holds exactly where
this makes no difference. -/
theorem RootsFollow.definesSchema_iff {roots : RootTypes}
    (h : document.RootsFollow (document.schemaBlocks ≠ []) roots) :
    document.RootsFollow document.DefinesSchema roots ↔
      document.DefinesSchema ∨ document.schemaBlocks = [] ∨
        ∀ kind, document.DefinesObject kind.defaultTypeName → document.NamesRoot kind := by
  constructor
  · intro hrule
    by_contra! hcontra
    obtain ⟨hdefines, hne, kind, hobject, hunnamed⟩ := hcontra
    have hnone : roots.get kind = none := h.absent hne kind hunnamed
    have hsome : roots.get kind = some kind.defaultTypeName :=
      (hrule.conventional hdefines kind hunnamed _).mpr ⟨rfl, hobject⟩
    simp [hnone] at hsome
  · intro hcases
    refine ⟨h.named, fun hdefines => h.absent hdefines.schemaBlocks_ne_nil, ?_⟩
    intro hdefines kind hunnamed name
    rcases hcases with hschema | hnil | hall
    · exact absurd hschema hdefines
    · exact h.conventional (not_not.mpr hnil) kind hunnamed name
    · by_cases hne : document.schemaBlocks = []
      · exact h.conventional (not_not.mpr hne) kind hunnamed name
      · rw [h.absent hne kind hunnamed]
        constructor
        · nofun
        · rintro ⟨rfl, hobject⟩
          exact absurd (hall kind hobject) hunnamed

end Document

/-- The root types of the catalog of a text are those named in its schema blocks; the conventional
names serve where there are none. So a schema extension without a definition keeps the object types
of conventional names from serving, and nothing else departs from the rule. -/
theorem Catalog.roots_of_ofSource {source : String} {catalog : Catalog}
    (h : Catalog.ofSource source = .ok catalog) :
    ∃ tokens document, SignificantTokens.ofSource source = .ok tokens ∧
      Document.read tokens.values = .ok document ∧
      document.RootsFollow (document.schemaBlocks ≠ []) catalog.roots ∧
      (document.RootsFollow document.DefinesSchema catalog.roots ↔
        document.DefinesSchema ∨ document.schemaBlocks = [] ∨
          ∀ kind, document.DefinesObject (OperationKind.defaultTypeName kind) →
            document.NamesRoot kind) := by
  obtain ⟨tokens, document, htokens, hread, hsound, hassemble⟩ :=
    Catalog.ofSource_eq_ok_iff.mp h
  have hroots := hsound.rootsFollow hassemble
  exact ⟨tokens, document, htokens, hread, hroots, hroots.definesSchema_iff⟩

/-- Without schema blocks the conventional names serve. -/
theorem Catalog.roots_of_ofSource_conventional :
    let source := "type Query \x7b a: Int \x7d"
    ∃ catalog tokens document, Catalog.ofSource source = .ok catalog ∧
      SignificantTokens.ofSource source = .ok tokens ∧
      Document.read tokens.values = .ok document ∧
      document.RootsFollow (document.schemaBlocks ≠ []) catalog.roots := by
  intro source
  have hok : (Catalog.ofSource source).isOk = true := by decide +kernel
  obtain ⟨catalog, h⟩ := exists_ok_of_isOk hok
  obtain ⟨tokens, document, htokens, hread, hroots, -⟩ := roots_of_ofSource h
  exact ⟨catalog, tokens, document, h, htokens, hread, hroots⟩

/-- A schema extension that only applies a directive takes the conventional name away: the rule in
which schema definitions alone withhold these names fails. -/
theorem Catalog.conventional_root_lost :
    let source := "directive @tag on SCHEMA\ntype Query \x7b a: Int \x7d\nextend schema @tag"
    ∃ catalog tokens document, Catalog.ofSource source = .ok catalog ∧
      SignificantTokens.ofSource source = .ok tokens ∧
      Document.read tokens.values = .ok document ∧
      ¬document.RootsFollow document.DefinesSchema catalog.roots := by
  intro source
  have hok : (Catalog.ofSource source).isOk = true := by decide +kernel
  have hparts : ((SignificantTokens.ofSource source).toOption.bind fun tokens =>
      (Document.read tokens.values).toOption).map (fun document =>
        (document.schemaBlocks.length, document.operations.length,
          document.typeDefinitions.map fun defined => (defined.2.name.value, defined.2.kind),
          (document.definitions.filterMap Definition.schemaPlace?).length)) =
      some (1, 0, [("Query", TypeKind.object)], 0) := by
    decide +kernel
  obtain ⟨catalog, h⟩ := exists_ok_of_isOk hok
  obtain ⟨tokens, document, htokens, hread, hsound, hassemble⟩ := ofSource_eq_ok_iff.mp h
  refine ⟨catalog, tokens, document, h, htokens, hread, ?_⟩
  rw [htokens] at hparts
  simp only [Except.toOption, Option.bind_some, hread, Option.map_some, Option.some.injEq,
    Prod.mk.injEq, List.length_eq_zero_iff] at hparts
  obtain ⟨hblocks, hoperations, htypes, hschemas⟩ := hparts
  rw [(hsound.rootsFollow hassemble).definesSchema_iff]
  -- There is a schema block, none of them is a definition, and none of them names an operation.
  rintro (⟨description, block, hd⟩ | hnil | hall)
  · exact absurd (List.filterMap_eq_nil_iff.mp hschemas _ hd) (by simp [Definition.schemaPlace?])
  · simp [hnil] at hblocks
  · have hquery : document.DefinesObject "Query" := by
      obtain ⟨defined, rest, hdefined, hquery, -⟩ := List.map_eq_cons_iff.mp htypes
      rw [Prod.mk.injEq] at hquery
      exact ⟨defined, hdefined ▸ List.mem_cons_self, hquery⟩
    obtain ⟨root, hr, -⟩ := hall .query hquery
    simp [hoperations] at hr

end SdlGraph
