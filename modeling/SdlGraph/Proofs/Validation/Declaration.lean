import SdlGraph.Proofs.Keyed
import SdlGraph.Proofs.Validation.Repetition
import SdlGraph.Proofs.Validation.Sound

/-!
# What a document with sound names declares

Where no definition clashes with what is built in and no name is defined twice, the definition of a
name that counts is the only one. Looking up a type or a directive then decides membership among the
definitions, whatever their order, and the first pass of checking reports nothing exactly for such
documents.
-/

namespace SdlGraph

variable {σ : Type}

/-- The names of the types that a definition defines: one or none. -/
def Definition.typeNames : Definition σ → List String
  | type _ declaration => [declaration.name.value]
  | _ => []

/-- The names of the directives that a definition defines: one or none. -/
def Definition.directiveNames : Definition σ → List String
  | directive _ declaration => [declaration.name.value]
  | _ => []

/-- A clash is a definition of an introspection type, or one of a built-in scalar type as a type of
another kind. -/
theorem TypeDeclaration.clashes_eq_false_iff {declaration : TypeDeclaration σ} :
    declaration.clashes = false ↔ declaration.name.value ∉ introspectionTypes ∧
      (declaration.name.value ∈ builtInScalars → declaration.kind = .scalar) := by
  simp [TypeDeclaration.clashes, isIntrospectionType, isBuiltInScalar]

/-- A directive is built in exactly when its name is listed. -/
theorem BuiltIn.directive?_eq_none_iff {name : String} :
    BuiltIn.directive? name = none ↔ name ∉ BuiltIn.directives.map (·.name) := by
  simp [BuiltIn.directive?]

/-- The built-in directives have distinct names. -/
theorem BuiltIn.nodup_map_name_directives : (BuiltIn.directives.map (·.name)).Nodup := by decide

namespace Document

variable {document : Document σ}

theorem mem_typeDefinitions {description : Option (Located σ String)}
    {declaration : TypeDeclaration σ} : (description, declaration) ∈ document.typeDefinitions ↔
      Definition.type description declaration ∈ document.definitions := by
  simp only [typeDefinitions, List.mem_filterMap]
  constructor
  · rintro ⟨definition, hd, he⟩
    cases definition <;> simp at he
    obtain ⟨rfl, rfl⟩ := he
    exact hd
  · intro h
    exact ⟨_, h, rfl⟩

theorem mem_typeExtensions {declaration : TypeDeclaration σ} :
    declaration ∈ document.typeExtensions ↔
      Definition.extendType declaration ∈ document.definitions := by
  simp only [typeExtensions, List.mem_filterMap]
  constructor
  · rintro ⟨definition, hd, he⟩
    cases definition <;> simp at he
    exact he ▸ hd
  · intro h
    exact ⟨_, h, rfl⟩

theorem mem_directiveDefinitions {declaration : DirectiveDeclaration σ} :
    declaration ∈ document.directiveDefinitions ↔
      ∃ description, Definition.directive description declaration ∈ document.definitions := by
  simp only [directiveDefinitions, List.mem_filterMap]
  constructor
  · rintro ⟨definition, hd, he⟩
    cases definition <;> simp at he
    exact ⟨_, he ▸ hd⟩
  · rintro ⟨description, h⟩
    exact ⟨_, h, rfl⟩

theorem mem_schemaBlocks {block : SchemaBlock σ} : block ∈ document.schemaBlocks ↔
    (∃ description, Definition.schema description block ∈ document.definitions) ∨
      Definition.extendSchema block ∈ document.definitions := by
  simp only [schemaBlocks, List.mem_filterMap]
  constructor
  · rintro ⟨definition, hd, he⟩
    cases definition <;> simp at he
    · exact .inl ⟨_, he ▸ hd⟩
    · exact .inr (he ▸ hd)
  · rintro (⟨description, h⟩ | h)
    · exact ⟨_, h, rfl⟩
    · exact ⟨_, h, rfl⟩

theorem mem_typeDeclarations {declaration : TypeDeclaration σ} :
    declaration ∈ document.typeDeclarations ↔
      (∃ description, (description, declaration) ∈ document.typeDefinitions) ∨
        declaration ∈ document.typeExtensions := by
  simp only [mem_typeDefinitions, mem_typeExtensions, typeDeclarations, List.mem_filterMap]
  constructor
  · rintro ⟨definition, hd, he⟩
    cases definition <;> simp [Definition.typeDeclaration?] at he
    · exact .inl ⟨_, he ▸ hd⟩
    · exact .inr (he ▸ hd)
  · rintro (⟨description, h⟩ | h)
    · exact ⟨_, h, rfl⟩
    · exact ⟨_, h, rfl⟩

theorem map_name_typeDefinitions :
    document.typeDefinitions.map (·.2.name.value) =
      document.definitions.flatMap Definition.typeNames := by
  simp only [typeDefinitions]
  induction document.definitions with
  | nil => rfl
  | cons definition rest ih =>
    cases definition <;> simp [Definition.typeNames, ih]

theorem map_name_directiveDefinitions :
    document.directiveDefinitions.map (·.name.value) =
      document.definitions.flatMap Definition.directiveNames := by
  simp only [directiveDefinitions]
  induction document.definitions with
  | nil => rfl
  | cons definition rest ih =>
    cases definition <;> simp [Definition.directiveNames, ih]

/-- Without clashes every type definition counts. -/
theorem filterMap_soundType?
    (hfree : ∀ defined ∈ document.typeDefinitions, defined.2.clashes = false) :
    document.definitions.filterMap Definition.soundType? =
      document.typeDefinitions.map Prod.snd := by
  obtain ⟨definitions⟩ := document
  induction definitions with
  | nil => rfl
  | cons definition rest ih =>
    have hrest := ih fun defined hd => hfree defined (by
      obtain ⟨description, declaration⟩ := defined
      exact mem_typeDefinitions.mpr (List.mem_cons_of_mem _ (mem_typeDefinitions.mp hd)))
    simp only [typeDefinitions] at hrest ⊢
    cases definition with
    | type description declaration =>
      have hd : declaration.clashes = false :=
        hfree (description, declaration) (mem_typeDefinitions.mpr List.mem_cons_self)
      simp [Definition.soundType?, hd, hrest]
    | _ => simpa [List.filterMap_cons, Definition.soundType?] using hrest

/-- If no directive definition repeats a built-in directive, every one counts. -/
theorem filterMap_soundDirective? (hfree : ∀ declaration ∈ document.directiveDefinitions,
      BuiltIn.directive? declaration.name.value = none) :
    document.definitions.filterMap Definition.soundDirective? = document.directiveDefinitions := by
  obtain ⟨definitions⟩ := document
  induction definitions with
  | nil => rfl
  | cons definition rest ih =>
    have hrest := ih fun declaration hd => hfree declaration (by
      obtain ⟨description, hm⟩ := mem_directiveDefinitions.mp hd
      exact mem_directiveDefinitions.mpr ⟨description, List.mem_cons_of_mem _ hm⟩)
    simp only [directiveDefinitions] at hrest ⊢
    cases definition with
    | directive description declaration =>
      have hd : BuiltIn.directive? declaration.name.value = none :=
        hfree declaration (mem_directiveDefinitions.mpr ⟨description, List.mem_cons_self⟩)
      simp [Definition.soundDirective?, hd, hrest]
    | _ => simpa [List.filterMap_cons, Definition.soundDirective?] using hrest

/-- Without clashes, a type is not declared exactly when no definition has its name. -/
theorem declaredType?_eq_none_iff (document : Document σ) {name : String}
    (hfree : ∀ defined ∈ document.typeDefinitions, defined.2.clashes = false) :
    declaredType? document.definitions name = none ↔
      name ∉ document.definitions.flatMap Definition.typeNames := by
  rw [declaredType?, filterMap_soundType? hfree, ← map_name_typeDefinitions]
  simp

/-- If no directive definition repeats a built-in directive, a directive is not declared exactly
when no definition has its name. -/
theorem declaredDirective?_eq_none_iff (document : Document σ) {name : String}
    (hfree : ∀ declaration ∈ document.directiveDefinitions,
      BuiltIn.directive? declaration.name.value = none) :
    declaredDirective? document.definitions name = none ↔
      name ∉ document.definitions.flatMap Definition.directiveNames := by
  rw [declaredDirective?, filterMap_soundDirective? hfree, ← map_name_directiveDefinitions]
  simp

/-- A type is declared exactly when a definition that does not clash has its name. -/
theorem isSome_declaredType?_iff {name : String} :
    (declaredType? document.definitions name).isSome = true ↔
      ∃ defined ∈ document.typeDefinitions,
        defined.2.name.value = name ∧ defined.2.clashes = false := by
  simp only [declaredType?, List.find?_isSome, List.mem_filterMap, beq_iff_eq]
  constructor
  · rintro ⟨declaration, ⟨definition, hd, hsound⟩, hname⟩
    cases definition with
    | type description written =>
      simp only [Definition.soundType?] at hsound
      split at hsound
      next => cases hsound
      next hclash =>
        cases hsound
        exact ⟨_, mem_typeDefinitions.mpr hd, hname, Bool.eq_false_iff.mpr hclash⟩
    | _ => cases hsound
  · rintro ⟨⟨description, declaration⟩, hd, hname, hclash⟩
    refine ⟨declaration, ⟨_, mem_typeDefinitions.mp hd, ?_⟩, hname⟩
    simp [Definition.soundType?, hclash]

/-- The look-up of names agrees with what a document knows. A definition that clashes does not
count, but then its name is built in. -/
theorem isKnownType_iff {name : String} :
    isKnownType document.definitions name = true ↔ document.Knows name := by
  simp only [isKnownType, Bool.or_eq_true, isSome_declaredType?_iff, Knows, isBuiltInScalar,
    isIntrospectionType, List.contains_iff_mem, or_assoc]
  constructor
  · rintro (⟨defined, hd, hname, -⟩ | hbuiltIn)
    · exact .inl ⟨defined, hd, hname⟩
    · exact .inr hbuiltIn
  · rintro (⟨defined, hd, rfl⟩ | hbuiltIn)
    · cases hclash : defined.2.clashes with
      | false => exact .inl ⟨defined, hd, rfl, hclash⟩
      | true =>
        refine .inr ?_
        simp only [TypeDeclaration.clashes, isIntrospectionType, isBuiltInScalar, Bool.or_eq_true,
          Bool.and_eq_true, List.contains_iff_mem] at hclash
        exact hclash.symm.imp_left And.left
    · exact .inr hbuiltIn

namespace NamesSound

variable (hnames : document.NamesSound)

include hnames

theorem clashes_eq_false : ∀ defined ∈ document.typeDefinitions, defined.2.clashes = false := by
  intro defined hd
  exact TypeDeclaration.clashes_eq_false_iff.mpr
    ⟨hnames.types_not_introspection defined hd, hnames.types_scalar defined hd⟩

theorem directive?_eq_none : ∀ declaration ∈ document.directiveDefinitions,
    BuiltIn.directive? declaration.name.value = none := by
  intro declaration hd
  exact BuiltIn.directive?_eq_none_iff.mpr (hnames.directives_not_builtIn declaration hd)

/-- The declared type of a name is the one definition of that name. -/
theorem declaredType?_eq_some_iff {name : String} {declaration : TypeDeclaration σ} :
    declaredType? document.definitions name = some declaration ↔
      (∃ description, (description, declaration) ∈ document.typeDefinitions) ∧
        declaration.name.value = name := by
  have hnodup : ((document.typeDefinitions.map Prod.snd).map (·.name.value)).Nodup := by
    rw [List.map_map]
    exact hnames.types_nodup
  rw [declaredType?, filterMap_soundType? hnames.clashes_eq_false, find?_key_eq_some_iff hnodup]
  simp

/-- Every type definition counts. -/
theorem isRegistered_eq_true [DecidableEq σ] {description : Option (Located σ String)}
    {declaration : TypeDeclaration σ}
    (hd : (description, declaration) ∈ document.typeDefinitions) :
    isRegistered document.definitions declaration = true := by
  rw [isRegistered, hnames.declaredType?_eq_some_iff.mpr ⟨⟨description, hd⟩, rfl⟩]
  simp

/-- All definitions and extensions of types give their members. -/
theorem contribution?_eq [DecidableEq σ] {definition : Definition σ}
    (hd : definition ∈ document.definitions) :
    definition.contribution? document.definitions = definition.typeDeclaration? := by
  cases definition with
  | type description declaration =>
    exact if_pos (hnames.isRegistered_eq_true (mem_typeDefinitions.mpr hd))
  | _ => rfl

/-- The declared directive of a name is the one definition of that name. -/
theorem declaredDirective?_eq_some_iff {name : String} {declaration : DirectiveDeclaration σ} :
    declaredDirective? document.definitions name = some declaration ↔
      declaration ∈ document.directiveDefinitions ∧ declaration.name.value = name := by
  rw [declaredDirective?, filterMap_soundDirective? hnames.directive?_eq_none,
    find?_key_eq_some_iff hnames.directives_nodup]

/-- The look-up of directives agrees with what a document allows. -/
theorem allowedLocations?_iff {name : String} {location : DirectiveLocation} :
    (∃ allowed, allowedLocations? document.definitions name = some allowed ∧
      location ∈ allowed) ↔ document.Allows name location := by
  simp only [allowedLocations?, Allows]
  cases hb : BuiltIn.directive? name with
  | some entry =>
    have he := (find?_key_eq_some_iff BuiltIn.nodup_map_name_directives).mp hb
    constructor
    · rintro ⟨allowed, ha, hl⟩
      cases ha
      exact .inl ⟨entry, he.1, he.2, hl⟩
    · rintro (⟨entry', hm, hn, hl⟩ | ⟨declaration, hd, hn, hl⟩)
      · have hb' := (find?_key_eq_some_iff BuiltIn.nodup_map_name_directives).mpr ⟨hm, hn⟩
        cases hb.symm.trans hb'
        exact ⟨_, rfl, hl⟩
      · have := hnames.directive?_eq_none declaration hd
        rw [hn, hb] at this
        cases this
  | none =>
    have hnone := BuiltIn.directive?_eq_none_iff.mp hb
    constructor
    · rintro ⟨allowed, ha, hl⟩
      obtain ⟨declaration, hd, rfl⟩ := Option.map_eq_some_iff.mp ha
      obtain ⟨hm, hn⟩ := hnames.declaredDirective?_eq_some_iff.mp hd
      exact .inr ⟨declaration, hm, hn, hl⟩
    · rintro (⟨entry, hm, hn, hl⟩ | ⟨declaration, hd, hn, hl⟩)
      · exact absurd (List.mem_map.mpr ⟨entry, hm, hn⟩) hnone
      · exact ⟨_, by rw [hnames.declaredDirective?_eq_some_iff.mpr ⟨hd, hn⟩]; rfl, hl⟩

end NamesSound

end Document

end SdlGraph
