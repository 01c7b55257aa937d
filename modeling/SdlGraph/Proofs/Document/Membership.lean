import SdlGraph.Proofs.Document.Spelling

/-!
# Which token lists are spellings

Membership in the spellings is read off their parts: a list in a product is cut into a list for each
part. The constants inside lists and input objects are spelled, bounded and checked item by item,
and no part that is an item of a list may be written as nothing.
-/

namespace SdlGraph

open Spelling

namespace Spelling

variable {α σ : Type} {ts us vs : List Token} {item : α → Language Token}

theorem mem_prod_nil : ts ∈ ([] : List (Language Token)).prod ↔ ts = [] := by
  rw [List.prod_nil, Language.mem_one]

theorem mem_prod_cons {part : Language Token} {parts : List (Language Token)} :
    ts ∈ (part :: parts).prod ↔ ∃ us ∈ part, ∃ vs ∈ parts.prod, us ++ vs = ts := by
  rw [List.prod_cons, Language.mem_mul]

/-- A spelling of a part before a spelling of the others. -/
theorem append_mem_prod {part : Language Token} {parts : List (Language Token)} (hu : us ∈ part)
    (hv : vs ∈ parts.prod) : us ++ vs ∈ (part :: parts).prod :=
  mem_prod_cons.mpr ⟨us, hu, vs, hv, rfl⟩

theorem nil_mem_prod : [] ∈ ([] : List (Language Token)).prod := mem_prod_nil.mpr rfl

/-- A part that is not written can be left out. -/
theorem mem_prod_one_cons {parts : List (Language Token)} :
    ts ∈ (1 :: parts).prod ↔ ts ∈ parts.prod := by
  rw [List.prod_cons, one_mul]

theorem mem_prod_singleton {part : Language Token} : ts ∈ [part].prod ↔ ts ∈ part := by
  rw [List.prod_singleton]

theorem mem_mark {written : Punctuator} : ts ∈ mark written ↔ ts = [.punctuator written] := Iff.rfl

theorem mem_word {written : String} : ts ∈ word written ↔ ts = [.name written] := Iff.rfl

theorem mem_text {written : String} :
    ts ∈ text written ↔ ts = [.stringValue written] ∨ ts = [.blockString written] := Iff.rfl

theorem mem_optional {part : Language Token} : ts ∈ optional part ↔ ts = [] ∨ ts ∈ part := by
  rw [optional, Language.mem_add, Language.mem_one]

theorem mem_each_nil : ts ∈ each item [] ↔ ts = [] := mem_prod_nil

theorem mem_each_cons {first : α} {rest : List α} :
    ts ∈ each item (first :: rest) ↔ ∃ us ∈ item first, ∃ vs ∈ each item rest, us ++ vs = ts :=
  mem_prod_cons

theorem mem_block_nil {opening close : Punctuator} : ts ∈ block item opening close [] ↔ ts = [] :=
  Language.mem_one ts

/-- A part between two marks. -/
theorem mem_enclosed {opening close : Punctuator} {part : Language Token} :
    ts ∈ [mark opening, part, mark close].prod ↔
      ∃ us ∈ part, ts = [.punctuator opening] ++ (us ++ [.punctuator close]) := by
  simp only [mem_prod_cons, mem_prod_nil, mem_mark]
  constructor
  · rintro ⟨_, rfl, _, ⟨us, hu, _, ⟨_, rfl, _, rfl, rfl⟩, rfl⟩, rfl⟩
    exact ⟨us, hu, rfl⟩
  · rintro ⟨us, hu, rfl⟩
    exact ⟨_, rfl, _, ⟨us, hu, _, ⟨_, rfl, _, rfl, rfl⟩, rfl⟩, rfl⟩

/-- A list that is not empty is written between its marks. -/
theorem mem_block {opening close : Punctuator} {items : List α} (h : items ≠ []) :
    ts ∈ block item opening close items ↔
      ∃ us ∈ each item items, ts = [.punctuator opening] ++ (us ++ [.punctuator close]) := by
  cases items with
  | nil => exact absurd rfl h
  | cons first rest => exact mem_enclosed

/-- Parts written one after the other are empty together only if each is. -/
theorem nil_mem_prod_cons {part : Language Token} {parts : List (Language Token)} :
    [] ∈ (part :: parts).prod ↔ [] ∈ part ∧ [] ∈ parts.prod := by
  simp only [mem_prod_cons, List.append_eq_nil_iff]
  constructor
  · rintro ⟨_, hu, _, hv, rfl, rfl⟩
    exact ⟨hu, hv⟩
  · rintro ⟨hu, hv⟩
    exact ⟨_, hu, _, hv, rfl, rfl⟩

theorem nil_not_mem_mark {written : Punctuator} : [] ∉ mark written := by simp [mem_mark]

theorem nil_not_mem_word {written : String} : [] ∉ word written := by simp [mem_word]

theorem nil_not_mem_text {written : String} : [] ∉ text written := by simp [mem_text]

end Spelling

namespace Value

theorem itemsSpelling_eq_each (items : List Value) : itemsSpelling items = each spelling items := by
  induction items with
  | nil => rfl
  | cons item rest ih => rw [itemsSpelling, ih, each, each, List.map_cons, List.prod_cons]

/-- The spelling of one entry of an input object. -/
def entrySpelling (entry : String × Value) : Language Token :=
  [word entry.1, mark .colon, entry.2.spelling].prod

theorem entriesSpelling_eq_each (entries : List (String × Value)) :
    entriesSpelling entries = each entrySpelling entries := by
  induction entries with
  | nil => rfl
  | cons entry rest ih =>
    rw [entriesSpelling, ih]
    exact List.prod_cons.symm

theorem itemsDepth_le_iff {items : List Value} {levels : Nat} :
    itemsDepth items ≤ levels ↔ ∀ item ∈ items, item.depth ≤ levels := by
  induction items with
  | nil => simp [itemsDepth]
  | cons item rest ih => simp [itemsDepth, ih]

theorem entriesDepth_le_iff {entries : List (String × Value)} {levels : Nat} :
    entriesDepth entries ≤ levels ↔ ∀ entry ∈ entries, entry.2.depth ≤ levels := by
  induction entries with
  | nil => simp [entriesDepth]
  | cons entry rest ih => simp [entriesDepth, ih]

theorem itemsProper_iff {items : List Value} :
    itemsProper items ↔ ∀ item ∈ items, item.EnumsProper := by
  induction items with
  | nil => simp [itemsProper]
  | cons item rest ih => simp [itemsProper, ih]

theorem entriesProper_iff {entries : List (String × Value)} :
    entriesProper entries ↔ ∀ entry ∈ entries, entry.2.EnumsProper := by
  induction entries with
  | nil => simp [entriesProper]
  | cons entry rest ih => simp [entriesProper, ih]

end Value

namespace Spelling

variable {σ : Type}

theorem nil_not_mem_value (value : Value) : [] ∉ value.spelling := by
  cases value with
  | boolean truth => cases truth <;> exact nil_not_mem_word
  | string written => exact nil_not_mem_text
  | list items => exact fun h => nil_not_mem_mark (nil_mem_prod_cons.mp h).1
  | object entries => exact fun h => nil_not_mem_mark (nil_mem_prod_cons.mp h).1
  | int text => exact fun h => List.cons_ne_nil _ _ h.symm
  | float text => exact fun h => List.cons_ne_nil _ _ h.symm
  | null => exact nil_not_mem_word
  | enum name => exact nil_not_mem_word

theorem nil_not_mem_entry (entry : String × Value) : [] ∉ Value.entrySpelling entry :=
  fun h => nil_not_mem_word (nil_mem_prod_cons.mp h).1

theorem nil_not_mem_argument (argument : Argument σ) : [] ∉ argument.spelling :=
  fun h => nil_not_mem_word (nil_mem_prod_cons.mp h).1

theorem nil_not_mem_directiveUse (use : DirectiveUse σ) : [] ∉ use.spelling :=
  fun h => nil_not_mem_mark (nil_mem_prod_cons.mp h).1

theorem nil_not_mem_inputValue (input : InputValue σ) : [] ∉ input.spelling :=
  fun h => nil_not_mem_word (nil_mem_prod_cons.mp (nil_mem_prod_cons.mp h).2).1

theorem nil_not_mem_field (field : Field σ) : [] ∉ field.spelling :=
  fun h => nil_not_mem_word (nil_mem_prod_cons.mp (nil_mem_prod_cons.mp h).2).1

theorem nil_not_mem_enumValue (value : EnumValue σ) : [] ∉ value.spelling :=
  fun h => nil_not_mem_word (nil_mem_prod_cons.mp (nil_mem_prod_cons.mp h).2).1

theorem nil_not_mem_rootOperation (root : RootOperation σ) : [] ∉ root.spelling :=
  fun h => nil_not_mem_word (nil_mem_prod_cons.mp h).1

theorem nil_not_mem_schemaBlock (schema : SchemaBlock σ) : [] ∉ schema.spelling :=
  fun h => nil_not_mem_word (nil_mem_prod_cons.mp h).1

theorem nil_not_mem_typeDeclaration (declaration : TypeDeclaration σ) :
    [] ∉ declaration.spelling :=
  fun h => nil_not_mem_word (nil_mem_prod_cons.mp h).1

theorem nil_not_mem_directiveDeclaration (declaration : DirectiveDeclaration σ) :
    [] ∉ declaration.spelling :=
  fun h => nil_not_mem_word (nil_mem_prod_cons.mp h).1

theorem nil_not_mem_definition (definition : Definition σ) : [] ∉ definition.spelling := by
  intro h
  cases definition with
  | schema described schema =>
    exact nil_not_mem_schemaBlock schema (mem_prod_singleton.mp (nil_mem_prod_cons.mp h).2)
  | extendSchema schema => exact nil_not_mem_word (nil_mem_prod_cons.mp h).1
  | type described declaration =>
    exact nil_not_mem_typeDeclaration declaration
      (mem_prod_singleton.mp (nil_mem_prod_cons.mp h).2)
  | extendType declaration => exact nil_not_mem_word (nil_mem_prod_cons.mp h).1
  | directive described declaration =>
    exact nil_not_mem_directiveDeclaration declaration
      (mem_prod_singleton.mp (nil_mem_prod_cons.mp h).2)

end Spelling

/-- The spelling of what follows the name of a type. -/
def TypeBody.tailSpelling {σ : Type} (uses : List (DirectiveUse σ)) (body : TypeBody σ) :
    Language Token :=
  [interfacesSpelling body.interfaces, each DirectiveUse.spelling uses, body.spelling].prod

end SdlGraph
