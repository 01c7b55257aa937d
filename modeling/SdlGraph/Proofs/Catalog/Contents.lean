import Mathlib.Data.List.Perm.Basic
import SdlGraph.Proofs.Catalog.Building
import SdlGraph.Proofs.Validation.Acceptance

/-!
# What a catalog contains

The types of the catalog of a sound document are, in order, one entry for each type definition and
then every built-in type that the document does not define itself. The directives are the built-in
ones followed by those of the document.
-/

namespace SdlGraph

variable {σ : Type}

namespace Document

variable {document : Document σ}

/-- The types of the document itself are its definitions, extensions merged into them. -/
theorem Sound.entries_ownTypes (hsound : document.Sound) :
    document.ownTypes.entries = document.typeDefinitions.map document.typeEntry := by
  refine Roster.entries_ofList ?_
  rw [List.map_map]
  exact hsound.types_nodup

/-- The three parts of an assembled catalog. -/
theorem assemble_eq_ok {catalog : Catalog} (h : document.assemble = .ok catalog) :
    catalog.types = BuiltIn.types.foldl Roster.putIfNew document.ownTypes ∧
      catalog.directives = (document.directiveDefinitions.map DirectiveDeclaration.entry).foldl
        Roster.put (Roster.ofList BuiltIn.directives) ∧
      catalog.roots = .ofFunction document.root? := by
  rcases document.assemble_eq with ⟨-, hok⟩ | ⟨_, _, _, _, _, _, herror⟩
  · rw [hok] at h
    simp only [← Except.ok.inj h, and_self]
  · cases herror.symm.trans h

/-- The types of a catalog in order: those of the document, then the other built-in types. -/
theorem entries_types {catalog : Catalog} (h : document.assemble = .ok catalog) :
    catalog.types.entries = document.ownTypes.entries ++
      BuiltIn.types.filter fun type => !document.ownTypes.contains type.name := by
  have hnodup : (BuiltIn.types.map Named.name).Nodup := by decide
  rw [(assemble_eq_ok h).1, Roster.entries_foldl_putIfNew hnodup]
  rfl

/-- Those of a sound document are the types defined. -/
theorem Sound.entries_types (hsound : document.Sound) {catalog : Catalog}
    (h : document.assemble = .ok catalog) :
    catalog.types.entries = document.typeDefinitions.map document.typeEntry ++
      BuiltIn.types.filter fun type => !document.ownTypes.contains type.name := by
  rw [Document.entries_types h, hsound.entries_ownTypes]

/-- The directives of a catalog in order: the built-in ones, then those defined. -/
theorem Sound.entries_directives (hsound : document.Sound) {catalog : Catalog}
    (h : document.assemble = .ok catalog) :
    catalog.directives.entries =
      BuiltIn.directives ++ document.directiveDefinitions.map DirectiveDeclaration.entry := by
  have hbuiltIn : (Roster.ofList BuiltIn.directives).entries = BuiltIn.directives :=
    Roster.entries_ofList BuiltIn.nodup_map_name_directives
  rw [(assemble_eq_ok h).2.1, Roster.entries_foldl_put, hbuiltIn]
  · rw [List.map_map]
    exact hsound.directives_nodup
  · intro entry he
    obtain ⟨declaration, hd, rfl⟩ := List.mem_map.mp he
    rw [Roster.names, hbuiltIn]
    exact hsound.directives_not_builtIn declaration hd

/-- The root types of a catalog are those that the document gives. -/
theorem get_roots {catalog : Catalog} (h : document.assemble = .ok catalog)
    (kind : OperationKind) : catalog.roots.get kind = document.root? kind := by
  rw [(assemble_eq_ok h).2.2, RootTypes.get_ofFunction]

end Document

/-- A document is accepted exactly when nothing is found in it. -/
theorem SignificantTokens.check_eq_ok_iff_findings {source : SignificantTokens}
    {document : Document Extent} : source.check document = .ok () ↔ document.findings = [] := by
  rw [check]
  cases document.findings <;> simp

/-- A document in which something is found gets the diagnostics of all that is found. -/
theorem SignificantTokens.check_eq_error_iff {source : SignificantTokens}
    {document : Document Extent} {problems : List (Diagnostic Span)} :
    source.check document = .error problems ↔ document.findings ≠ [] ∧
      problems = document.findings.map fun finding => source.locate finding.diagnostic := by
  rw [check]
  cases document.findings with
  | nil => simp
  | cons finding findings =>
    constructor
    · intro h
      exact ⟨List.cons_ne_nil _ _, (Except.error.inj h).symm⟩
    · rintro ⟨-, rfl⟩
      rfl

/-- A text has a catalog exactly when it is cut into tokens that read as a sound document whose
catalog that is. -/
theorem Catalog.ofSource_eq_ok_iff {source : String} {catalog : Catalog} :
    Catalog.ofSource source = .ok catalog ↔
      ∃ tokens document, SignificantTokens.ofSource source = .ok tokens ∧
        Document.read tokens.values = .ok document ∧ document.Sound ∧
        document.assemble = .ok catalog := by
  have hcheck (tokens : SignificantTokens) (document : Document Extent) :
      tokens.check document = .ok () ↔ document.Sound :=
    SignificantTokens.check_eq_ok_iff_findings.trans Document.findings_eq_nil_iff
  constructor
  · intro h
    unfold ofSource at h
    split at h
    · cases h
    next tokens htokens =>
      split at h
      · cases h
      next document hdocument =>
        split at h
        · cases h
        next hsound =>
          refine ⟨tokens, document, htokens, ?_, (hcheck tokens document).mp hsound, ?_⟩
          · exact SignificantTokens.document_eq_ok_iff.mp hdocument
          · unfold SignificantTokens.assemble at h
            split at h <;> simp_all
  · rintro ⟨tokens, document, htokens, hdocument, hsound, hassemble⟩
    have hread := SignificantTokens.document_eq_ok_iff.mpr hdocument
    simp [ofSource, htokens, hread, (hcheck tokens document).mpr hsound,
      SignificantTokens.assemble, hassemble]

end SdlGraph
