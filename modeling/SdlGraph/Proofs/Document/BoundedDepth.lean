import SdlGraph.Proofs.Document.Membership
import SdlGraph.Proofs.Validation.Declaration
import SdlGraph.Proofs.Validation.Traversal

/-!
# Bounded depth

What the grammar asks of a document bounds the depth of each type and of each constant in it. A
function that goes down into one of these needs no more nested calls than the bound allows. The
functions that do so are given here with a number of calls they may nest, and give what the ones
without such a number give as long as it is large enough.
-/

namespace SdlGraph

namespace TypeRef

/-- The number of wrappers around a name. -/
def wrappers : TypeRef → Nat
  | named _ => 0
  | list element => element.wrappers + 1
  | nonNull inner => inner.wrappers + 1

/-- The name under all wrappers, found with so many nested calls at most. -/
def baseNameWithin : Nat → TypeRef → Option String
  | 0, _ => none
  | _ + 1, named name => some name
  | calls + 1, list element => element.baseNameWithin calls
  | calls + 1, nonNull inner => inner.baseNameWithin calls

/-- The written form of a reference, found with so many nested calls at most. -/
def renderWithin : Nat → TypeRef → Option String
  | 0, _ => none
  | _ + 1, named name => some name
  | calls + 1, list element => (element.renderWithin calls).map fun text => "[" ++ text ++ "]"
  | calls + 1, nonNull inner => (inner.renderWithin calls).map fun text => text ++ "!"

/-- Between two lists there is room for one wrapper that forbids null, and for one more at each
end. -/
theorem wrappers_le {type : TypeRef} (h : type.NonNullApart) :
    type.wrappers ≤ 2 * type.listDepth + if type.isNonNull then 1 else 0 := by
  induction type with
  | named name => exact Nat.le_refl 0
  | list element ih =>
    have helement := ih h
    simp only [wrappers, listDepth, isNonNull, Bool.false_eq_true, if_false]
    split at helement <;> omega
  | nonNull inner ih =>
    have hinner := ih h.2
    simp only [h.1, Bool.false_eq_true, if_false] at hinner
    simp only [wrappers, listDepth, isNonNull, if_true]
    omega

theorem baseNameWithin_eq {type : TypeRef} {calls : Nat} (h : type.wrappers < calls) :
    type.baseNameWithin calls = some type.baseName := by
  induction type generalizing calls with
  | named name =>
    obtain ⟨calls, rfl⟩ := Nat.exists_eq_succ_of_ne_zero (Nat.ne_zero_of_lt h)
    rfl
  | list element ih =>
    obtain ⟨calls, rfl⟩ := Nat.exists_eq_succ_of_ne_zero (Nat.ne_zero_of_lt h)
    exact ih (Nat.lt_of_succ_lt_succ h)
  | nonNull inner ih =>
    obtain ⟨calls, rfl⟩ := Nat.exists_eq_succ_of_ne_zero (Nat.ne_zero_of_lt h)
    exact ih (Nat.lt_of_succ_lt_succ h)

theorem renderWithin_eq {type : TypeRef} {calls : Nat} (h : type.wrappers < calls) :
    type.renderWithin calls = some type.render := by
  induction type generalizing calls with
  | named name =>
    obtain ⟨calls, rfl⟩ := Nat.exists_eq_succ_of_ne_zero (Nat.ne_zero_of_lt h)
    rfl
  | list element ih =>
    obtain ⟨calls, rfl⟩ := Nat.exists_eq_succ_of_ne_zero (Nat.ne_zero_of_lt h)
    rw [renderWithin, ih (Nat.lt_of_succ_lt_succ h)]
    rfl
  | nonNull inner ih =>
    obtain ⟨calls, rfl⟩ := Nat.exists_eq_succ_of_ne_zero (Nat.ne_zero_of_lt h)
    rw [renderWithin, ih (Nat.lt_of_succ_lt_succ h)]
    rfl

end TypeRef

theorem mapM_eq_some {α β : Type} {f : α → Option β} {g : α → β} {items : List α}
    (h : ∀ item ∈ items, f item = some (g item)) : items.mapM f = some (items.map g) := by
  induction items with
  | nil => rfl
  | cons item rest ih =>
    obtain ⟨hitem, hrest⟩ := List.forall_mem_cons.mp h
    rw [List.mapM_cons, hitem, ih hrest]
    rfl

namespace Value

/-- The written form of a constant, found with so many nested calls at most. -/
def renderWithin : Nat → Value → Option String
  | 0, _ => none
  | calls + 1, list items =>
    (items.mapM (renderWithin calls)).map fun texts => "[" ++ ", ".intercalate texts ++ "]"
  | calls + 1, object entries =>
    (entries.mapM fun entry => (renderWithin calls entry.2).map (entry.1 ++ ": " ++ ·)).map
      fun texts => "\x7b" ++ ", ".intercalate texts ++ "\x7d"
  | _ + 1, value => some value.render

theorem renderWithin_eq {value : Value} {calls : Nat} (h : value.depth < calls) :
    value.renderWithin calls = some value.render := by
  induction calls generalizing value with
  | zero => exact absurd h (Nat.not_lt_zero _)
  | succ calls ih =>
    cases value with
    | list items =>
      have hitems := itemsDepth_le_iff.mp (Nat.le_refl (itemsDepth items))
      have htexts : items.mapM (renderWithin calls) = some (items.map render) :=
        mapM_eq_some fun item hi =>
          ih ((hitems item hi).trans_lt (Nat.lt_of_succ_lt_succ h))
      rw [renderWithin, htexts, render, renderItems_eq_map]
      rfl
    | object entries =>
      have hentries := entriesDepth_le_iff.mp (Nat.le_refl (entriesDepth entries))
      have htexts : (entries.mapM fun entry =>
          (renderWithin calls entry.2).map (entry.1 ++ ": " ++ ·)) =
            some (entries.map fun entry => entry.1 ++ ": " ++ entry.2.render) := by
        refine mapM_eq_some fun entry he => ?_
        rw [ih ((hentries entry he).trans_lt (Nat.lt_of_succ_lt_succ h))]
        rfl
      rw [renderWithin, htexts, render, renderEntries_eq_map]
      rfl
    | _ => rfl

end Value

namespace Document

variable {σ : Type}

/-- The default values and the arguments of directives in a document. -/
def constants (document : Document σ) : List (Located σ Value) :=
  document.applications.flatMap (fun application => application.1.arguments.map (·.value)) ++
    (document.argumentDefinitions ++ document.inputFields).filterMap (·.default)

namespace Grammatical

variable {document : Document σ}

theorem typeDeclarations (h : document.Grammatical) :
    ∀ declaration ∈ document.typeDeclarations, declaration.Grammatical := by
  intro declaration hd
  rcases mem_typeDeclarations.mp hd with ⟨description, hd⟩ | hd
  · exact h.definitions _ (mem_typeDefinitions.mp hd)
  · exact (h.definitions _ (mem_typeExtensions.mp hd)).1

theorem directiveDefinitions (h : document.Grammatical) :
    ∀ declaration ∈ document.directiveDefinitions, declaration.Grammatical := by
  intro declaration hd
  obtain ⟨description, hd⟩ := mem_directiveDefinitions.mp hd
  exact h.definitions _ hd

theorem schemaBlocks (h : document.Grammatical) :
    ∀ block ∈ document.schemaBlocks, ∀ use ∈ block.directives, use.Grammatical := by
  intro block hb
  rcases mem_schemaBlocks.mp hb with ⟨description, hb⟩ | hb
  · exact (h.definitions _ hb).1
  · exact (h.definitions _ hb).1

theorem fields (h : document.Grammatical) : ∀ field ∈ document.fields, field.Grammatical := by
  intro field hf
  obtain ⟨declaration, hd, hf⟩ := List.mem_flatMap.mp hf
  exact (h.typeDeclarations declaration hd).body.fields field hf

theorem inputFields (h : document.Grammatical) :
    ∀ input ∈ document.inputFields, input.Grammatical := by
  intro input hi
  obtain ⟨declaration, hd, hi⟩ := List.mem_flatMap.mp hi
  exact (h.typeDeclarations declaration hd).body.inputFields input hi

theorem enumValues (h : document.Grammatical) :
    ∀ value ∈ document.enumValues, value.Grammatical := by
  intro value hv
  obtain ⟨declaration, hd, hv⟩ := List.mem_flatMap.mp hv
  exact (h.typeDeclarations declaration hd).body.values value hv

theorem argumentDefinitions (h : document.Grammatical) :
    ∀ argument ∈ document.argumentDefinitions, argument.Grammatical := by
  intro argument ha
  rcases List.mem_append.mp ha with ha | ha
  · obtain ⟨field, hf, ha⟩ := List.mem_flatMap.mp ha
    exact (h.fields field hf).arguments argument ha
  · obtain ⟨declaration, hd, ha⟩ := List.mem_flatMap.mp ha
    exact (h.directiveDefinitions declaration hd).arguments argument ha

/-- Every type written after a colon is what the grammar asks for. -/
theorem annotations (h : document.Grammatical) :
    ∀ written ∈ document.annotations, written.type.Grammatical := by
  intro written hw
  simp only [Document.annotations, List.mem_append, List.mem_map] at hw
  rcases hw with (⟨field, hf, rfl⟩ | ⟨argument, ha, rfl⟩) | ⟨input, hi, rfl⟩
  · exact (h.fields field hf).type
  · exact (h.argumentDefinitions argument ha).type
  · exact (h.inputFields input hi).type

/-- Every directive application is what the grammar asks for. -/
theorem applications (h : document.Grammatical) :
    ∀ application ∈ document.applications, application.1.Grammatical := by
  intro application ha
  simp only [Document.applications, List.mem_append, List.mem_flatMap, List.mem_map] at ha
  rcases ha with ((((⟨block, hb, use, hu, rfl⟩ | ⟨declaration, hd, use, hu, rfl⟩) |
    ⟨field, hf, use, hu, rfl⟩) | ⟨argument, ha, use, hu, rfl⟩) | ⟨input, hi, use, hu, rfl⟩) |
    ⟨value, hv, use, hu, rfl⟩
  · exact h.schemaBlocks block hb use hu
  · exact (h.typeDeclarations declaration hd).directives use hu
  · exact (h.fields field hf).directives use hu
  · exact (h.argumentDefinitions argument ha).directives use hu
  · exact (h.inputFields input hi).directives use hu
  · exact (h.enumValues value hv).directives use hu

/-- Every constant is what the grammar asks for. -/
theorem constants (h : document.Grammatical) :
    ∀ constant ∈ document.constants, constant.value.Grammatical := by
  intro constant hc
  rcases List.mem_append.mp hc with hc | hc
  · obtain ⟨application, ha, hc⟩ := List.mem_flatMap.mp hc
    obtain ⟨argument, hargument, rfl⟩ := List.mem_map.mp hc
    exact h.applications application ha argument hargument
  · obtain ⟨input, hi, hc⟩ := List.mem_filterMap.mp hc
    rcases List.mem_append.mp hi with hi | hi
    · exact (h.argumentDefinitions input hi).default constant hc
    · exact (h.inputFields input hi).default constant hc

end Grammatical

end Document

end SdlGraph
