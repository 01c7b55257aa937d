import SdlGraph.Proofs.Document.Faithful

/-!
# Every repetition gets ahead

`Parser.collect` would stop at an item that takes no token. None of the repetitions of the grammar
has such an item: each of their rounds takes a token, so the loop that goes round for as long as
there are items comes to an end, and what it comes to is what `collect` gives.
-/

namespace SdlGraph

open Spelling

namespace Parser

variable {α : Type}

/-- Each item of a repetition leaves fewer tokens than there were before it. -/
def Advances (step : Parser (Option α)) : Prop :=
  ∀ cursor item later, step cursor = .ok (some item, later) →
    later.rest.length < cursor.rest.length

/-- What the loop that repeats a step for as long as it yields items comes to. Each round takes a
token at least. -/
inductive Repeats (step : Parser (Option α)) :
    Cursor → Except Refusal (List α × Cursor) → Prop where
  /-- The step refuses. -/
  | refuses {cursor : Cursor} {refusal : Refusal} (h : step cursor = .error refusal) :
      Repeats step cursor (.error refusal)
  /-- The step yields no item. -/
  | stops {cursor later : Cursor} (h : step cursor = .ok (none, later)) :
      Repeats step cursor (.ok ([], later))
  /-- A later round refuses. -/
  | fails {cursor later : Cursor} {item : α} {refusal : Refusal}
      (h : step cursor = .ok (some item, later)) (hless : later.rest.length < cursor.rest.length)
      (hrest : Repeats step later (.error refusal)) : Repeats step cursor (.error refusal)
  /-- The step yields an item and the loop goes on. -/
  | goesOn {cursor later last : Cursor} {item : α} {items : List α}
      (h : step cursor = .ok (some item, later)) (hless : later.rest.length < cursor.rest.length)
      (hrest : Repeats step later (.ok (items, last))) :
      Repeats step cursor (.ok (item :: items, last))

/-- Where each item takes a token, the loop comes to what is collected. -/
theorem Advances.repeats {step : Parser (Option α)} (h : step.Advances) (cursor : Cursor) :
    step.Repeats cursor (collect step cursor) := by
  fun_induction collect step cursor with
  | case1 cursor refusal hr => exact .refuses hr
  | case2 cursor later hr => exact .stops hr
  | case3 cursor item later hr hless refusal hc ih =>
    rw [hc] at ih
    exact .fails hr hless ih
  | case4 cursor item later hr hless items last hc ih =>
    rw [hc] at ih
    exact .goesOn hr hless ih
  | case5 cursor item later hr hless => exact absurd (h cursor item later hr) hless

/-- The steps of the repetitions in the grammar. -/
inductive ListLoop : {α : Type} → Parser (Option α) → Prop where
  /-- The items of a list. -/
  | items (levels : Nat) : ListLoop (unlessNext .rightBracket (Located.value <$> value levels))
  /-- The entries of an input object. -/
  | entries (levels : Nat) : ListLoop (unlessNext .rightBrace (objectEntry (value levels)))
  /-- The arguments given to a directive. -/
  | arguments : ListLoop (unlessNext .rightParen argument)
  /-- Directive applications. -/
  | directives : ListLoop directiveUse?
  /-- Argument definitions. -/
  | argumentDefinitions : ListLoop (unlessNext .rightParen (inputValue .argumentName))
  /-- Fields of object and interface types. -/
  | fields : ListLoop (unlessNext .rightBrace field)
  /-- Fields of input object types. -/
  | inputFields : ListLoop (unlessNext .rightBrace (inputValue .inputFieldName))
  /-- Enum values. -/
  | enumValues : ListLoop (unlessNext .rightBrace enumValue)
  /-- Root operations. -/
  | rootOperations : ListLoop (unlessNext .rightBrace rootOperation)
  /-- Interfaces. -/
  | interfaces : ListLoop (following .amp fun _ => name .interfaceName)
  /-- Members of unions. -/
  | unionMembers : ListLoop (following .pipe fun _ => name .unionMember)
  /-- Directive locations. -/
  | locations : ListLoop (following .pipe fun _ => directiveLocation)
  /-- Definitions and extensions. -/
  | definitions : ListLoop definition?

namespace Advances

variable {step : Parser (Option α)} {parser : Parser α} {item : α → Language Token}
  {fine : α → Prop}

/-- A step advances if what it takes for an item is not empty. -/
theorem of_takes {ending : List Token → Prop} (h : step.Takes fun result taken =>
      result.elim (ending taken) fun value => taken ∈ item value ∧ fine value)
    (hne : ∀ value, [] ∉ item value) : step.Advances := by
  intro cursor value later hr
  obtain ⟨taken, ⟨htaken, -⟩, hrest, -⟩ := h cursor (some value) later hr
  have hpos : 0 < taken.length := by
    refine List.length_pos_iff.mpr fun hnil => hne value ?_
    rwa [hnil] at htaken
  rw [hrest, List.length_append]
  omega

/-- Items up to a closing mark. -/
theorem unlessNext (close : Punctuator)
    (h : parser.Takes fun value taken => taken ∈ item value ∧ fine value)
    (hne : ∀ value, [] ∉ item value) : (Parser.unlessNext close parser).Advances :=
  of_takes (Takes.unlessNext h) hne

/-- An item behind a mark takes the mark at least. -/
theorem following (mark : Punctuator) {next : Extent → Parser α}
    {relation : α → List Token → Prop} (h : ∀ place, (next place).Takes relation) :
    (Parser.following mark next).Advances := by
  intro cursor value later hr
  obtain ⟨taken, ⟨us, -, rfl⟩, hrest, -⟩ := Takes.following h cursor (some value) later hr
  rw [hrest, List.length_append, List.length_cons]
  omega

end Advances

/-- Each round of each repetition of the grammar takes a token. -/
theorem ListLoop.advances {step : Parser (Option α)} (h : ListLoop step) : step.Advances := by
  cases h with
  | items levels => exact .unlessNext _ (takes_listItem (takes_value levels)) nil_not_mem_value
  | entries levels =>
    exact .unlessNext _ (takes_objectEntry (takes_value levels)) nil_not_mem_entry
  | arguments => exact .unlessNext _ takes_argument nil_not_mem_argument
  | directives => exact .of_takes takes_directiveUse? nil_not_mem_directiveUse
  | argumentDefinitions => exact .unlessNext _ (takes_inputValue _) nil_not_mem_inputValue
  | fields => exact .unlessNext _ takes_field nil_not_mem_field
  | inputFields => exact .unlessNext _ (takes_inputValue _) nil_not_mem_inputValue
  | enumValues => exact .unlessNext _ takes_enumValue nil_not_mem_enumValue
  | rootOperations => exact .unlessNext _ takes_rootOperation nil_not_mem_rootOperation
  | interfaces => exact .following _ fun _ => takes_name _
  | unionMembers => exact .following _ fun _ => takes_name _
  | locations => exact .following _ fun _ => takes_location
  | definitions => exact .of_takes takes_definition? nil_not_mem_definition

end Parser

end SdlGraph
