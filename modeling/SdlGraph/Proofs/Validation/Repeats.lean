import SdlGraph.Proofs.Validation.Scopes
import SdlGraph.Proofs.Validation.Traversal

/-!
# What a document repeats

What may not be repeated is listed scope by scope: the types of a document, its directives, the
members of one type, the arguments in one place, the operations of all schema blocks, the schema
definitions. In each scope every item after the first one of its key is a repeat of that first one.
What the check finds of repetitions is, up to the order, all these repeats.
-/

namespace SdlGraph

variable {σ : Type}

/-- Something that is given again. -/
structure Repeat (σ : Type) where
  /-- The code under which this is told. -/
  code : Code
  /-- Where it is given again. -/
  again : σ
  /-- Where it was given first; nothing if it is built in. -/
  first? : Option σ
  deriving Repr

/-- The repeat of one item by another. -/
def Repeat.of {α : Type} (code : Code) (place : α → σ) (again first : α) : Repeat σ :=
  ⟨code, place again, some (place first)⟩

/-- The repeat of a definition with a name, of another one or of something built in. -/
def Repeat.ofDefined {α : Type} (name : α → Located σ String) (code : Code) (again : α)
    (first? : Option α) : Repeat σ :=
  ⟨code, (name again).place, first?.map fun first => (name first).place⟩

/-- The repeats in a scope, whose items are told apart by a key. -/
def repeatsIn {α κ : Type} [DecidableEq κ] (key : α → κ) (code : α → Code) (place : α → σ)
    (items : List α) : List (Repeat σ) :=
  (groups key items).flatMap (againstFirst fun again => Repeat.of (code again) place again)

/-- The repeats among definitions with names, some of which are taken by what is built in: those in
front of the first one that counts repeat what is built in. -/
def repeatsOfDefined {α : Type} (name : α → Located σ String) (taken : α → Bool) (code : Code)
    (items : List α) : List (Repeat σ) :=
  (groups (fun item => (name item).value) items).flatMap
    (againstFirstFree taken (Repeat.ofDefined name code))

/-- The repeats in a list of arguments. -/
def repeatedArguments (names : List (Located σ String)) : List (Repeat σ) :=
  repeatsIn (·.value) (fun _ => .duplicateArgument) (·.place) names

/-- Whether a directive definition clashes with a built-in directive. -/
def DirectiveDeclaration.clashes (declaration : DirectiveDeclaration σ) : Bool :=
  (BuiltIn.directive? declaration.name.value).isSome

/-- A field, input field or enum value that a definition or extension gives to a type. -/
structure Member (σ : Type) where
  /-- The name of the type. -/
  owner : String
  /-- The kind of type that the definition or extension is of. -/
  kind : TypeKind
  /-- The name of the member. -/
  name : Located σ String

/-- What a member is known by. -/
def Member.key (member : Member σ) : String × String := (member.owner, member.name.value)

/-- The code for a member that is given again. -/
def Member.code (member : Member σ) : Code :=
  if member.kind = .enum then .duplicateEnumValue else .duplicateField

/-- The members in a type definition or extension. -/
def TypeDeclaration.ownedMembers (declaration : TypeDeclaration σ) : List (Member σ) :=
  declaration.body.memberNames.map fun name => ⟨declaration.name.value, declaration.kind, name⟩

/-- The members that a definition or extension gives to a type. A type definition gives its members
if it does not clash with what is built in and is the first such definition of its name. -/
def givenMembers (before : List (Definition σ)) : Definition σ → List (Member σ)
  | .type _ declaration =>
    if declaration.clashes || (declaredType? before declaration.name.value).isSome then []
    else declaration.ownedMembers
  | .extendType declaration => declaration.ownedMembers
  | _ => []

/-- The members that a definition gives to its type. -/
def Definition.contributedMembers [DecidableEq σ] (all : List (Definition σ))
    (definition : Definition σ) : List (Member σ) :=
  (definition.contribution? all).toList.flatMap TypeDeclaration.ownedMembers

namespace Document

variable (document : Document σ)

/-- The members of all types. -/
def members : List (Member σ) := withEarlier givenMembers [] document.definitions

/-- The names in each list of arguments: those of a field, of a directive definition and of a
directive application. -/
def argumentLists : List (List (Located σ String)) :=
  document.fields.map (fun field => field.arguments.map (·.name)) ++
    (document.directiveDefinitions.map (fun directive => directive.arguments.map (·.name)) ++
      document.applications.map fun application => application.1.arguments.map (·.name))

/-- All that is given again in a document. -/
def repeats : List (Repeat σ) :=
  repeatsOfDefined (·.2.name) (·.2.clashes) .duplicateType document.typeDefinitions ++
    repeatsOfDefined (·.name) (·.clashes) .duplicateDirective document.directiveDefinitions ++
    againstFirst (Repeat.of .multipleSchemas id)
      (document.definitions.filterMap Definition.schemaPlace?) ++
    repeatsIn (·.operation.value) (fun _ => .duplicateRootOperation) (·.operation.place)
      document.operations ++
    repeatsIn Member.key Member.code (·.name.place) document.members ++
    document.argumentLists.flatMap repeatedArguments

end Document

/-- The type that counts for a name in a list counts for it as long as the list goes on. -/
theorem declaredType?_append (before after : List (Definition σ)) (name : String) :
    declaredType? (before ++ after) name =
      (declaredType? before name).or (declaredType? after name) := by
  rw [declaredType?, List.filterMap_append, List.find?_append]
  rfl

/-- The declared type of a name has its name where one of the definitions has it. -/
theorem declaredType?_mem_names {definitions : List (Definition σ)} {name : String}
    {declaration : TypeDeclaration σ} (h : declaredType? definitions name = some declaration) :
    declaration.name.place ∈ (definitions.filterMap Definition.name?).map (·.place) := by
  obtain ⟨definition, hd, hsound⟩ := List.mem_filterMap.mp (List.mem_of_find?_eq_some h)
  cases definition with
  | type description written =>
    obtain ⟨-, ⟨⟩⟩ := Option.ite_none_left_eq_some.mp hsound
    exact List.mem_map_of_mem (List.mem_filterMap.mpr ⟨_, hd, rfl⟩)
  | _ => cases hsound

/-- Where the names of definitions stand in different places, a type definition counts exactly if
it does not clash with what is built in and no earlier definition counts for its name. -/
theorem isRegistered_eq [DecidableEq σ] {before after : List (Definition σ)}
    {description : Option (Located σ String)} {declaration : TypeDeclaration σ}
    (hapart : (((before ++ .type description declaration :: after).filterMap
      Definition.name?).map (·.place)).Nodup) :
    isRegistered (before ++ .type description declaration :: after) declaration =
      ((declaredType? before declaration.name.value).isNone && !declaration.clashes) := by
  have hplaces : ((before ++ Definition.type description declaration :: after).filterMap
      Definition.name?).map (·.place) = (before.filterMap Definition.name?).map (·.place) ++
        declaration.name.place :: (after.filterMap Definition.name?).map (·.place) := by
    rw [List.filterMap_append, List.map_append]
    rfl
  rw [hplaces, List.nodup_append'] at hapart
  obtain ⟨-, hafter, hbefore⟩ := hapart
  rw [isRegistered, declaredType?_append]
  cases hfirst : declaredType? before declaration.name.value with
  | some first =>
    have hne : first.name.place ≠ declaration.name.place := fun heq =>
      hbefore (declaredType?_mem_names hfirst) (heq ▸ List.mem_cons_self)
    simpa using hne
  | none =>
    cases hclash : declaration.clashes with
    | false => simp [declaredType?, Definition.soundType?, hclash]
    | true =>
      have hskip : declaredType? (.type description declaration :: after) declaration.name.value =
          declaredType? after declaration.name.value := by
        simp [declaredType?, Definition.soundType?, hclash]
      rw [hskip, Option.none_or]
      cases hlater : declaredType? after declaration.name.value with
      | none => rfl
      | some later =>
        have hne : later.name.place ≠ declaration.name.place := fun heq =>
          (List.nodup_cons.mp hafter).1 (heq ▸ declaredType?_mem_names hlater)
        simpa using hne

/-- Where the names of definitions stand in different places, the members of all types are those
that the definitions are found to give. -/
theorem Document.members_eq [DecidableEq σ] {document : Document σ}
    (hapart : ((document.definitions.filterMap Definition.name?).map (·.place)).Nodup) :
    document.members =
      document.definitions.flatMap (Definition.contributedMembers document.definitions) := by
  rw [members, ← withEarlier_const _ []]
  refine withEarlier_congr_of_split fun before definition after he => ?_
  rw [List.nil_append]
  cases definition with
  | type description declaration =>
    rw [he] at hapart ⊢
    rw [givenMembers, Definition.contributedMembers, Definition.contribution?,
      isRegistered_eq hapart]
    cases declaration.clashes <;> cases declaredType? before declaration.name.value <;> simp
  | extendType declaration => exact (List.append_nil _).symm
  | _ => rfl

/-- The lists of arguments in a definition, those of directive applications left out. -/
def Definition.argumentLists : Definition σ → List (List (Located σ String))
  | type _ declaration =>
    declaration.body.fields.map fun field => field.arguments.map (·.name)
  | extendType declaration =>
    declaration.body.fields.map fun field => field.arguments.map (·.name)
  | directive _ declaration => [declaration.arguments.map (·.name)]
  | _ => []

/-- The lists of arguments in definitions are those of fields and those of directive
definitions. -/
theorem argumentLists_perm (definitions : List (Definition σ)) :
    (definitions.flatMap Definition.argumentLists).Perm
      ((Document.mk definitions).fields.map (fun field => field.arguments.map (·.name)) ++
        (Document.mk definitions).directiveDefinitions.map
          fun directive => directive.arguments.map (·.name)) := by
  induction definitions with
  | nil => exact .nil
  | cons definition rest ih =>
    rw [List.flatMap_cons]
    refine (ih.append_left _).trans ?_
    cases definition with
    | directive description declaration =>
      exact (List.perm_append_comm_assoc [declaration.arguments.map (·.name)] _ _)
    | _ =>
      refine .of_eq ?_
      simp [Definition.argumentLists, Document.fields, Document.typeDeclarations,
        Definition.typeDeclaration?, Document.directiveDefinitions, List.filterMap_cons]

/-- The names of the arguments in something met on a walk. -/
def Event.argumentNames : Event σ → List (Located σ String)
  | directive applied _ => applied.arguments.map (·.name)
  | _ => []

end SdlGraph
