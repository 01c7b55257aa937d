import SdlGraph.Proofs.Document.Membership

/-!
# Brackets with nothing between them

A list of members or arguments that is empty is not written at all, so its brackets never stand next
to each other. The only empty pairs of brackets in a spelling are the empty input objects among the
constants, and there is one pair for each of them.
-/

namespace SdlGraph

open Spelling

/-- The number of times a mark is directly followed by another. -/
def emptyPairs (opening close : Punctuator) : List Token → Nat
  | [] => 0
  | token :: rest =>
    (if token = .punctuator opening ∧ rest.head? = some (.punctuator close) then 1 else 0) +
      emptyPairs opening close rest

/-- No pair of marks stands across the border of two lists unless both its marks are there. -/
theorem emptyPairs_append {opening close : Punctuator} {us vs : List Token}
    (h : us.getLast? ≠ some (.punctuator opening) ∨ vs.head? ≠ some (.punctuator close)) :
    emptyPairs opening close (us ++ vs) =
      emptyPairs opening close us + emptyPairs opening close vs := by
  induction us with
  | nil => rw [List.nil_append, emptyPairs, Nat.zero_add]
  | cons token us ih =>
    cases us with
    | nil =>
      have hborder : ¬(token = .punctuator opening ∧ vs.head? = some (.punctuator close)) := by
        intro ⟨htoken, hhead⟩
        rcases h with h | h
        · exact h (by rw [htoken]; rfl)
        · exact h hhead
      simp [emptyPairs, hborder]
    | cons next us =>
      rw [List.getLast?_cons_cons] at h
      have hrest := ih h
      rw [List.cons_append, emptyPairs, hrest]
      conv_rhs => rw [emptyPairs]
      rw [List.cons_append, List.head?_cons, List.head?_cons]
      omega

/-- A token list has as many empty pairs of braces as it is said to, no empty pair of parentheses,
and no half of a pair at its border. -/
structure Bracketed (objects : Nat) (ts : List Token) : Prop where
  /-- It starts with no closing bracket. -/
  head : ∀ close ∈ [Punctuator.rightParen, .rightBrace], ts.head? ≠ some (.punctuator close)
  /-- It ends with no opening bracket. -/
  last : ∀ opening ∈ [Punctuator.leftParen, .leftBrace],
    ts.getLast? ≠ some (.punctuator opening)
  /-- Its parentheses are never empty. -/
  parens : emptyPairs .leftParen .rightParen ts = 0
  /-- Its braces are empty as often as said. -/
  braces : emptyPairs .leftBrace .rightBrace ts = objects

namespace Bracketed

variable {m n : Nat} {us vs : List Token}

theorem nil : Bracketed 0 [] := ⟨by simp, by simp, rfl, rfl⟩

/-- A token that is no bracket. -/
theorem single {token : Token} (h : ∀ bracket ∈ [Punctuator.leftParen, .rightParen, .leftBrace,
    .rightBrace], token ≠ .punctuator bracket) : Bracketed 0 [token] := by
  refine ⟨fun close hc => ?_, fun opening ho => ?_, ?_, ?_⟩
  · simp only [List.head?_cons, ne_eq, Option.some.injEq]
    exact h close (by simp only [List.mem_cons, List.not_mem_nil] at hc ⊢; tauto)
  · simp only [List.getLast?_singleton, ne_eq, Option.some.injEq]
    exact h opening (by simp only [List.mem_cons, List.not_mem_nil] at ho ⊢; tauto)
  · simp [emptyPairs]
  · simp [emptyPairs]

theorem append (hu : Bracketed m us) (hv : Bracketed n vs) : Bracketed (m + n) (us ++ vs) := by
  refine ⟨fun close hc => ?_, fun opening ho => ?_, ?_, ?_⟩
  · cases us with
    | nil => exact hv.head close hc
    | cons token us => exact hu.head close hc
  · rw [List.getLast?_append]
    cases hlast : vs.getLast? with
    | none => exact hu.last opening ho
    | some token => exact fun h => hv.last opening ho (hlast.trans h)
  · rw [emptyPairs_append (.inl (hu.last _ (by simp))), hu.parens, hv.parens]
  · rw [emptyPairs_append (.inl (hu.last _ (by simp))), hu.braces, hv.braces]

/-- A list that is not empty keeps its brackets apart. -/
theorem enclose {opening close : Punctuator} (hu : Bracketed n us) (hne : us ≠ [])
    (hopening : opening ∈ [Punctuator.leftParen, .leftBrace])
    (hclose : close ∈ [Punctuator.rightParen, .rightBrace]) :
    Bracketed n (.punctuator opening :: us ++ [.punctuator close]) := by
  have hpairs : ∀ opening' ∈ [Punctuator.leftParen, .leftBrace],
      ∀ close' ∈ [Punctuator.rightParen, .rightBrace],
        emptyPairs opening' close' (.punctuator opening :: us ++ [.punctuator close]) =
          emptyPairs opening' close' us := by
    intro opening' ho close' hc
    have hhead : (us ++ [Token.punctuator close]).head? ≠ some (.punctuator close') := by
      rw [List.head?_append_of_ne_nil _ hne]
      exact hu.head close' hc
    rw [List.cons_append, emptyPairs, if_neg fun h => hhead h.2, Nat.zero_add,
      emptyPairs_append (.inl (hu.last opening' ho))]
    simp [emptyPairs]
  have hapart : ∀ opening ∈ [Punctuator.leftParen, .leftBrace],
      ∀ close ∈ [Punctuator.rightParen, .rightBrace], opening ≠ close := by decide
  refine ⟨fun close' hc h => ?_, fun opening' ho h => ?_, ?_, ?_⟩
  · cases h
    exact hapart _ hopening _ hc rfl
  · rw [List.getLast?_concat] at h
    cases h
    exact hapart _ ho _ hclose rfl
  · rw [hpairs _ (by simp) _ (by simp), hu.parens]
  · rw [hpairs _ (by simp) _ (by simp), hu.braces]

/-- Braces with nothing between them are an empty input object. -/
theorem emptyObject : Bracketed 1 [.punctuator .leftBrace, .punctuator .rightBrace] :=
  ⟨by simp, by simp, by simp [emptyPairs], by simp [emptyPairs]⟩

end Bracketed

namespace Spelling

/-- Every way to write a part has the same number of empty pairs of braces. -/
def Holds (part : Language Token) (objects : Nat) : Prop := ∀ ts ∈ part, Bracketed objects ts

namespace Holds

variable {α : Type} {part : Language Token} {parts : List (Language Token)} {m n : Nat}

theorem congr (h : Holds part m) (he : m = n) : Holds part n := he ▸ h

theorem one : Holds 1 0 := by
  intro ts hts
  rw [(Language.mem_one ts).mp hts]
  exact Bracketed.nil

theorem mul {other : Language Token} (h : Holds part m) (hother : Holds other n) :
    Holds (part * other) (m + n) := by
  intro ts hts
  obtain ⟨us, hu, vs, hv, rfl⟩ := Language.mem_mul.mp hts
  exact (h us hu).append (hother vs hv)

theorem prod_nil : Holds ([] : List (Language Token)).prod 0 := one

theorem prod_cons (h : Holds part m) (hrest : Holds parts.prod n) :
    Holds (part :: parts).prod (m + n) := by
  rw [List.prod_cons]
  exact h.mul hrest

theorem mark {written : Punctuator} (h : written ∉ [Punctuator.leftParen, .rightParen,
    .leftBrace, .rightBrace]) : Holds (mark written) 0 := by
  intro ts hts
  rw [mem_mark.mp hts]
  refine Bracketed.single fun bracket hb he => ?_
  cases he
  exact h hb

theorem word {written : String} : Holds (word written) 0 := by
  intro ts hts
  rw [mem_word.mp hts]
  exact Bracketed.single fun bracket hb => nofun

theorem text {written : String} : Holds (text written) 0 := by
  intro ts hts
  rcases mem_text.mp hts with rfl | rfl
  · exact Bracketed.single fun bracket hb => nofun
  · exact Bracketed.single fun bracket hb => nofun

theorem optional (h : Holds part 0) : Holds (optional part) 0 := by
  intro ts hts
  rcases mem_optional.mp hts with rfl | hts
  · exact Bracketed.nil
  · exact h ts hts

variable {item : α → Language Token} {objects : α → Nat}

/-- What the items of a list hold adds up. -/
theorem each (h : ∀ value, Holds (item value) (objects value)) (items : List α) :
    Holds (each item items) (items.map objects).sum := by
  induction items with
  | nil => exact one
  | cons first rest ih =>
    rw [List.map_cons, List.sum_cons]
    exact prod_cons (h first) ih

/-- Brackets around something add no empty pair. -/
theorem enclosed {opening close : Punctuator} (h : Holds part n) (hne : [] ∉ part)
    (hopening : opening ∈ [Punctuator.leftParen, .leftBrace])
    (hclose : close ∈ [Punctuator.rightParen, .rightBrace]) :
    Holds [Spelling.mark opening, part, Spelling.mark close].prod n := by
  intro ts hts
  obtain ⟨us, hu, rfl⟩ := mem_enclosed.mp hts
  exact (h us hu).enclose (fun he => hne (he ▸ hu)) hopening hclose

/-- A list between brackets adds no empty pair, since an empty list is not written. -/
theorem block {opening close : Punctuator} (h : ∀ value, Holds (item value) (objects value))
    (hne : ∀ value, [] ∉ item value) (hopening : opening ∈ [Punctuator.leftParen, .leftBrace])
    (hclose : close ∈ [Punctuator.rightParen, .rightBrace]) (items : List α) :
    Holds (block item opening close items) (items.map objects).sum := by
  cases items with
  | nil => exact one
  | cons first rest =>
    refine enclosed (each h (first :: rest)) (fun hm => ?_) hopening hclose
    exact hne first (nil_mem_prod_cons.mp hm).1

theorem inParens (h : ∀ value, Holds (item value) (objects value)) (hne : ∀ value, [] ∉ item value)
    (items : List α) :
    Holds (Spelling.block item .leftParen .rightParen items) (items.map objects).sum :=
  block h hne (by simp) (by simp) items

theorem inBraces (h : ∀ value, Holds (item value) (objects value)) (hne : ∀ value, [] ∉ item value)
    (items : List α) :
    Holds (Spelling.block item .leftBrace .rightBrace items) (items.map objects).sum :=
  block h hne (by simp) (by simp) items

theorem separated {between : Punctuator} (hbetween : between ∉ [Punctuator.leftParen,
    .rightParen, .leftBrace, .rightBrace]) (h : ∀ value, Holds (item value) 0) (items : List α) :
    Holds (separated item between items) 0 := by
  cases items with
  | nil => exact one
  | cons first rest =>
    have hother (value : α) : Holds (Spelling.mark between * item value) 0 :=
      mul (mark hbetween) (h value)
    refine (prod_cons (h first) (prod_cons (each hother rest) prod_nil)).congr ?_
    simp

end Holds

end Spelling

mutual

/-- The number of empty input objects in a constant. -/
def Value.emptyObjects : Value → Nat
  | list items => itemsEmptyObjects items
  | object [] => 1
  | object entries => entriesEmptyObjects entries
  | _ => 0

/-- The number of empty input objects in the items of a list. -/
def Value.itemsEmptyObjects : List Value → Nat
  | [] => 0
  | item :: rest => item.emptyObjects + itemsEmptyObjects rest

/-- The number of empty input objects in the entries of an input object. -/
def Value.entriesEmptyObjects : List (String × Value) → Nat
  | [] => 0
  | (_, value) :: rest => value.emptyObjects + entriesEmptyObjects rest

end

variable {σ : Type}

/-- The number of empty input objects among the arguments of a directive. -/
def DirectiveUse.emptyObjects (use : DirectiveUse σ) : Nat :=
  (use.arguments.map (·.value.value.emptyObjects)).sum

/-- The number of empty input objects in a default value, if there is one. -/
def InputValue.defaultEmptyObjects : Option (Located σ Value) → Nat
  | none => 0
  | some written => written.value.emptyObjects

/-- The number of empty input objects in an input value. -/
def InputValue.emptyObjects (input : InputValue σ) : Nat :=
  defaultEmptyObjects input.default + (input.directives.map DirectiveUse.emptyObjects).sum

/-- The number of empty input objects in a field. -/
def Field.emptyObjects (field : Field σ) : Nat :=
  (field.arguments.map InputValue.emptyObjects).sum +
    (field.directives.map DirectiveUse.emptyObjects).sum

/-- The number of empty input objects in an enum value. -/
def EnumValue.emptyObjects (value : EnumValue σ) : Nat :=
  (value.directives.map DirectiveUse.emptyObjects).sum

/-- The number of empty input objects in the parts of a type. -/
def TypeBody.emptyObjects (body : TypeBody σ) : Nat :=
  (body.fields.map Field.emptyObjects).sum + (body.inputFields.map InputValue.emptyObjects).sum +
    (body.values.map EnumValue.emptyObjects).sum

/-- The number of empty input objects in a type declaration. -/
def TypeDeclaration.emptyObjects (declaration : TypeDeclaration σ) : Nat :=
  (declaration.directives.map DirectiveUse.emptyObjects).sum + declaration.body.emptyObjects

/-- The number of empty input objects in a schema block. -/
def SchemaBlock.emptyObjects (schema : SchemaBlock σ) : Nat :=
  (schema.directives.map DirectiveUse.emptyObjects).sum

/-- The number of empty input objects in a directive declaration. -/
def DirectiveDeclaration.emptyObjects (declaration : DirectiveDeclaration σ) : Nat :=
  (declaration.arguments.map InputValue.emptyObjects).sum

/-- The number of empty input objects in a definition or extension. -/
def Definition.emptyObjects : Definition σ → Nat
  | schema _ block => block.emptyObjects
  | extendSchema block => block.emptyObjects
  | type _ declaration => declaration.emptyObjects
  | extendType declaration => declaration.emptyObjects
  | directive _ declaration => declaration.emptyObjects

/-- The number of empty input objects among all constants of a document. -/
def Document.emptyObjects (document : Document σ) : Nat :=
  (document.definitions.map Definition.emptyObjects).sum

namespace Spelling

theorem holds_describing (described : Option (Located σ String)) :
    Holds (describing described) 0 := by
  cases described with
  | none => exact Holds.one
  | some written => exact Holds.text

/-- A type is spelled without braces and parentheses. -/
theorem holds_typeRef (type : TypeRef) : Holds type.spelling 0 := by
  induction type with
  | named name => exact Holds.word
  | list element ih =>
    exact Holds.prod_cons (Holds.mark (by decide))
      (Holds.prod_cons ih (Holds.prod_cons (Holds.mark (by decide)) Holds.prod_nil))
  | nonNull inner ih =>
    exact Holds.prod_cons ih (Holds.prod_cons (Holds.mark (by decide)) Holds.prod_nil)

mutual

/-- A constant is spelled with one empty pair of braces for each of its empty input objects. -/
theorem holds_value : (value : Value) → Holds value.spelling value.emptyObjects
  | .int _ => fun ts hts => by
    obtain rfl : ts = _ := hts
    exact Bracketed.single fun bracket hb => nofun
  | .float _ => fun ts hts => by
    obtain rfl : ts = _ := hts
    exact Bracketed.single fun bracket hb => nofun
  | .string _ => Holds.text
  | .boolean true => Holds.word
  | .boolean false => Holds.word
  | .null => Holds.word
  | .enum _ => Holds.word
  | .list items => by
    have hitems := holds_items items
    exact (Holds.prod_cons (Holds.mark (by decide)) (Holds.prod_cons hitems
      (Holds.prod_cons (Holds.mark (by decide)) Holds.prod_nil))).congr (by
        simp [Value.emptyObjects])
  | .object [] => by
    intro ts hts
    obtain ⟨us, hu, rfl⟩ := mem_enclosed.mp hts
    rw [(Language.mem_one us).mp hu]
    exact Bracketed.emptyObject
  | .object (entry :: rest) => by
    have hne : [] ∉ Value.entriesSpelling (entry :: rest) := by
      rw [Value.entriesSpelling_eq_each]
      exact fun hm => nil_not_mem_entry entry (nil_mem_prod_cons.mp hm).1
    show Holds [mark .leftBrace, Value.entriesSpelling (entry :: rest), mark .rightBrace].prod _
    exact (holds_entries (entry :: rest)).enclosed hne (by simp) (by simp)

theorem holds_items : (items : List Value) →
    Holds (Value.itemsSpelling items) (Value.itemsEmptyObjects items)
  | [] => Holds.one
  | item :: rest => (holds_value item).mul (holds_items rest)

theorem holds_entries : (entries : List (String × Value)) →
    Holds (Value.entriesSpelling entries) (Value.entriesEmptyObjects entries)
  | [] => Holds.one
  | (name, value) :: rest => by
    have hentry : Holds [word name, mark .colon, value.spelling].prod (0 + (0 + _)) :=
      Holds.word.prod_cons ((Holds.mark (by decide)).prod_cons
        ((holds_value value).prod_cons Holds.prod_nil))
    exact (hentry.mul (holds_entries rest)).congr (by simp [Value.entriesEmptyObjects])

end

theorem holds_argument (argument : Argument σ) :
    Holds argument.spelling argument.value.value.emptyObjects := by
  refine Holds.congr (Holds.prod_cons Holds.word (Holds.prod_cons (Holds.mark (by decide))
    (Holds.prod_cons (holds_value _) Holds.prod_nil))) ?_
  omega

/-- The parentheses of a directive are there only with arguments in them. -/
theorem holds_directiveUse (use : DirectiveUse σ) : Holds use.spelling use.emptyObjects := by
  have harguments := Holds.inParens holds_argument nil_not_mem_argument use.arguments
  refine Holds.congr (Holds.prod_cons (Holds.mark (by decide)) (Holds.prod_cons Holds.word
    (Holds.prod_cons harguments Holds.prod_nil))) ?_
  simp only [DirectiveUse.emptyObjects]
  omega

theorem holds_default (default : Option (Located σ Value)) :
    Holds (InputValue.defaultSpelling default) (InputValue.defaultEmptyObjects default) := by
  cases default with
  | none => exact Holds.one
  | some written =>
    refine Holds.congr (Holds.prod_cons (Holds.mark (by decide))
      (Holds.prod_cons (holds_value _) Holds.prod_nil)) ?_
    simp only [InputValue.defaultEmptyObjects]
    omega

/-- An input value holds the empty input objects of its default value and its directives. -/
theorem holds_inputValue (input : InputValue σ) : Holds input.spelling input.emptyObjects := by
  refine Holds.congr (Holds.prod_cons (holds_describing _) (Holds.prod_cons Holds.word
    (Holds.prod_cons (Holds.mark (by decide)) (Holds.prod_cons (holds_typeRef _)
    (Holds.prod_cons (holds_default _)
    (Holds.prod_cons (Holds.each holds_directiveUse _) Holds.prod_nil)))))) ?_
  simp only [InputValue.emptyObjects]
  omega

/-- A field holds the empty input objects of its arguments and its directives. -/
theorem holds_field (field : Field σ) : Holds field.spelling field.emptyObjects := by
  have harguments := Holds.inParens holds_inputValue nil_not_mem_inputValue field.arguments
  refine Holds.congr (Holds.prod_cons (holds_describing _) (Holds.prod_cons Holds.word
    (Holds.prod_cons harguments (Holds.prod_cons (Holds.mark (by decide))
    (Holds.prod_cons (holds_typeRef _)
    (Holds.prod_cons (Holds.each holds_directiveUse _) Holds.prod_nil)))))) ?_
  simp only [Field.emptyObjects]
  omega

theorem holds_enumValue (value : EnumValue σ) : Holds value.spelling value.emptyObjects := by
  refine Holds.congr (Holds.prod_cons (holds_describing _) (Holds.prod_cons Holds.word
    (Holds.prod_cons (Holds.each holds_directiveUse _) Holds.prod_nil))) ?_
  simp only [EnumValue.emptyObjects]
  omega

theorem holds_interfaces (names : List (Located σ String)) :
    Holds (TypeBody.interfacesSpelling names) 0 := by
  cases names with
  | nil => exact Holds.one
  | cons first rest =>
    exact Holds.prod_cons Holds.word (Holds.prod_cons (Holds.optional (Holds.mark (by decide)))
      (Holds.prod_cons (Holds.separated (by decide) (fun name => Holds.word) _) Holds.prod_nil))

theorem holds_members (names : List (Located σ String)) :
    Holds (TypeBody.membersSpelling names) 0 := by
  cases names with
  | nil => exact Holds.one
  | cons first rest =>
    exact Holds.prod_cons (Holds.mark (by decide)) (Holds.prod_cons
      (Holds.optional (Holds.mark (by decide)))
      (Holds.prod_cons (Holds.separated (by decide) (fun name => Holds.word) _) Holds.prod_nil))

/-- The braces of a type are there only with members in them. -/
theorem holds_typeBody (body : TypeBody σ) : Holds body.spelling body.emptyObjects := by
  cases body with
  | object interfaces fields =>
    exact (Holds.inBraces holds_field nil_not_mem_field fields).congr rfl
  | interface interfaces fields =>
    exact (Holds.inBraces holds_field nil_not_mem_field fields).congr rfl
  | union members => exact holds_members members
  | enum values =>
    refine (Holds.inBraces holds_enumValue nil_not_mem_enumValue values).congr ?_
    simp [TypeBody.emptyObjects, TypeBody.fields, TypeBody.inputFields, TypeBody.values]
  | inputObject fields =>
    refine (Holds.inBraces holds_inputValue nil_not_mem_inputValue fields).congr ?_
    simp [TypeBody.emptyObjects, TypeBody.fields, TypeBody.inputFields, TypeBody.values]
  | scalar => exact Holds.one

theorem holds_typeDeclaration (declaration : TypeDeclaration σ) :
    Holds declaration.spelling declaration.emptyObjects := by
  refine Holds.congr (Holds.prod_cons Holds.word (Holds.prod_cons Holds.word
    (Holds.prod_cons (holds_interfaces _) (Holds.prod_cons (Holds.each holds_directiveUse _)
    (Holds.prod_cons (holds_typeBody _) Holds.prod_nil))))) ?_
  simp only [TypeDeclaration.emptyObjects]
  omega

theorem holds_rootOperation (root : RootOperation σ) : Holds root.spelling 0 :=
  Holds.prod_cons Holds.word (Holds.prod_cons (Holds.mark (by decide))
    (Holds.prod_cons Holds.word Holds.prod_nil))

/-- The braces of a schema block are there only with root operations in them. -/
theorem holds_schemaBlock (schema : SchemaBlock σ) :
    Holds schema.spelling schema.emptyObjects := by
  have hoperations := Holds.inBraces holds_rootOperation nil_not_mem_rootOperation
    schema.operations
  refine Holds.congr (Holds.prod_cons Holds.word (Holds.prod_cons
    (Holds.each holds_directiveUse _) (Holds.prod_cons hoperations Holds.prod_nil))) ?_
  simp [SchemaBlock.emptyObjects]

theorem holds_directiveDeclaration (declaration : DirectiveDeclaration σ) :
    Holds declaration.spelling declaration.emptyObjects := by
  have harguments := Holds.inParens holds_inputValue nil_not_mem_inputValue declaration.arguments
  have hrepeatable : Holds (if declaration.isRepeatable then word "repeatable" else 1) 0 := by
    split
    · exact Holds.word
    · exact Holds.one
  refine Holds.congr (Holds.prod_cons Holds.word (Holds.prod_cons (Holds.mark (by decide))
    (Holds.prod_cons Holds.word (Holds.prod_cons harguments (Holds.prod_cons hrepeatable
    (Holds.prod_cons Holds.word (Holds.prod_cons (Holds.optional (Holds.mark (by decide)))
    (Holds.prod_cons (Holds.separated (by decide) (fun location => Holds.word) _)
    Holds.prod_nil)))))))) ?_
  simp only [DirectiveDeclaration.emptyObjects]
  omega

theorem holds_definition (definition : Definition σ) :
    Holds definition.spelling definition.emptyObjects := by
  cases definition with
  | schema described schema =>
    refine Holds.congr (Holds.prod_cons (holds_describing _)
      (Holds.prod_cons (holds_schemaBlock schema) Holds.prod_nil)) (Nat.zero_add _)
  | extendSchema schema =>
    exact Holds.congr (Holds.prod_cons Holds.word
      (Holds.prod_cons (holds_schemaBlock schema) Holds.prod_nil)) (Nat.zero_add _)
  | type described declaration =>
    exact Holds.congr (Holds.prod_cons (holds_describing _)
      (Holds.prod_cons (holds_typeDeclaration declaration) Holds.prod_nil)) (Nat.zero_add _)
  | extendType declaration =>
    exact Holds.congr (Holds.prod_cons Holds.word
      (Holds.prod_cons (holds_typeDeclaration declaration) Holds.prod_nil)) (Nat.zero_add _)
  | directive described declaration =>
    exact Holds.congr (Holds.prod_cons (holds_describing _)
      (Holds.prod_cons (holds_directiveDeclaration declaration) Holds.prod_nil)) (Nat.zero_add _)

/-- In a spelling of a document no parentheses are empty, and braces are empty once for each empty
input object. -/
theorem holds_document (document : Document σ) :
    Holds document.spelling document.emptyObjects :=
  Holds.each holds_definition document.definitions

end Spelling

end SdlGraph
