import SdlGraph.Proofs.Validation.Declaration

/-!
# The first pass of checking

The first pass looks at each definition of a type or directive with the definitions before it. It
reports nothing exactly when all names of types differ, all names of directives differ, and none of
them is taken by what is built in.
-/

namespace SdlGraph

variable {σ : Type}

namespace Document

variable {document : Document σ}

/-- What the first pass asks of a definition: a new name that is not taken by what is built in. -/
theorem registration_eq_nil_iff {before : List (Definition σ)} {item : Definition σ} :
    Check.registration before item = [] ↔
      (∀ name ∈ item.typeNames, declaredType? before name = none) ∧
        (∀ description declaration, item = .type description declaration →
          declaration.clashes = false) ∧
        (∀ name ∈ item.directiveNames, declaredDirective? before name = none) ∧
        ∀ description declaration, item = .directive description declaration →
          BuiltIn.directive? declaration.name.value = none := by
  cases item with
  | type description declaration =>
    cases hd : declaredType? before declaration.name.value <;>
      simp [Check.registration, Definition.typeNames, Definition.directiveNames, hd]
  | directive description declaration =>
    cases hd : declaredDirective? before declaration.name.value <;>
      simp [Check.registration, Definition.typeNames, Definition.directiveNames, hd]
  | _ => simp [Check.registration, Definition.typeNames, Definition.directiveNames]

/-- The definitions before a place form a document whose definitions are among all definitions. -/
theorem mem_typeDefinitions_of_before {before after : List (Definition σ)} {item : Definition σ}
    (he : document.definitions = before ++ item :: after) :
    ∀ defined ∈ (Document.mk before).typeDefinitions, defined ∈ document.typeDefinitions := by
  intro ⟨description, declaration⟩ hd
  rw [mem_typeDefinitions] at hd ⊢
  rw [he]
  exact List.mem_append_left _ hd

theorem mem_directiveDefinitions_of_before {before after : List (Definition σ)}
    {item : Definition σ} (he : document.definitions = before ++ item :: after) :
    ∀ declaration ∈ (Document.mk before).directiveDefinitions,
      declaration ∈ document.directiveDefinitions := by
  intro declaration hd
  rw [mem_directiveDefinitions] at hd ⊢
  obtain ⟨description, hm⟩ := hd
  exact ⟨description, he ▸ List.mem_append_left _ hm⟩

/-- Without clashes, every type name is new at its place exactly when all type names differ. -/
theorem types_new_iff
    (hfree : ∀ defined ∈ document.typeDefinitions, defined.2.clashes = false) :
    EachAfter (fun before item => ∀ name ∈ item.typeNames, declaredType? before name = none)
      document.definitions ↔ (document.typeDefinitions.map (·.2.name.value)).Nodup := by
  rw [map_name_typeDefinitions, EachAfter.nodup_flatMap_iff]
  apply EachAfter.congr
  intro before item after he
  have hbefore : ∀ name, declaredType? before name = none ↔
      name ∉ before.flatMap Definition.typeNames := fun name =>
    declaredType?_eq_none_iff ⟨before⟩ fun defined hd =>
      hfree defined (mem_typeDefinitions_of_before he defined hd)
  have hnodup : item.typeNames.Nodup := by cases item <;> simp [Definition.typeNames]
  simp only [hbefore, hnodup, true_and]

/-- If no built-in directive is repeated, every directive name is new at its place exactly when all
directive names differ. -/
theorem directives_new_iff (hfree : ∀ declaration ∈ document.directiveDefinitions,
      BuiltIn.directive? declaration.name.value = none) :
    EachAfter
      (fun before item => ∀ name ∈ item.directiveNames, declaredDirective? before name = none)
      document.definitions ↔ (document.directiveDefinitions.map (·.name.value)).Nodup := by
  rw [map_name_directiveDefinitions, EachAfter.nodup_flatMap_iff]
  apply EachAfter.congr
  intro before item after he
  have hbefore : ∀ name, declaredDirective? before name = none ↔
      name ∉ before.flatMap Definition.directiveNames := fun name =>
    declaredDirective?_eq_none_iff ⟨before⟩ fun declaration hd =>
      hfree declaration (mem_directiveDefinitions_of_before he declaration hd)
  have hnodup : item.directiveNames.Nodup := by cases item <;> simp [Definition.directiveNames]
  simp only [hbefore, hnodup, true_and]

/-- The first pass is silent exactly on documents with sound names. -/
theorem registrations_eq_nil_iff :
    withEarlier Check.registration [] document.definitions = [] ↔ document.NamesSound := by
  rw [withEarlier_eq_nil_iff]
  simp only [List.nil_append, registration_eq_nil_iff, EachAfter.and_iff, EachAfter.forall_iff]
  constructor
  · intro ⟨htypes, hclash, hdirectives, hbuiltIn⟩
    have hfree : ∀ defined ∈ document.typeDefinitions, defined.2.clashes = false :=
      fun ⟨description, declaration⟩ hd =>
        hclash _ (mem_typeDefinitions.mp hd) description declaration rfl
    have hfree' : ∀ declaration ∈ document.directiveDefinitions,
        BuiltIn.directive? declaration.name.value = none := by
      intro declaration hd
      obtain ⟨description, hm⟩ := mem_directiveDefinitions.mp hd
      exact hbuiltIn _ hm description declaration rfl
    exact {
      types_nodup := (types_new_iff hfree).mp htypes
      types_not_introspection := fun defined hd =>
        (TypeDeclaration.clashes_eq_false_iff.mp (hfree defined hd)).1
      types_scalar := fun defined hd =>
        (TypeDeclaration.clashes_eq_false_iff.mp (hfree defined hd)).2
      directives_nodup := (directives_new_iff hfree').mp hdirectives
      directives_not_builtIn := fun declaration hd =>
        BuiltIn.directive?_eq_none_iff.mp (hfree' declaration hd) }
  · intro hnames
    refine ⟨(types_new_iff hnames.clashes_eq_false).mpr hnames.types_nodup, ?_,
      (directives_new_iff hnames.directive?_eq_none).mpr hnames.directives_nodup, ?_⟩
    · rintro item hi description declaration rfl
      exact hnames.clashes_eq_false _ (mem_typeDefinitions.mpr hi)
    · rintro item hi description declaration rfl
      exact hnames.directive?_eq_none _ (mem_directiveDefinitions.mpr ⟨description, hi⟩)

end Document

end SdlGraph
