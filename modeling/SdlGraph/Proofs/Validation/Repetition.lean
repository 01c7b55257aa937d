import Mathlib.Data.List.Induction
import Mathlib.Data.List.Nodup
import SdlGraph.Validation.Check

/-!
# Reports that depend on what came before

A check that is told the earlier items stays silent on a whole list exactly when every item is fine
after the items before it. A list built from the items has no repetition exactly when each item adds
parts that are new and different from each other. Together these turn the reports of repetitions
into statements without an order: no two parts are equal.
-/

namespace SdlGraph

variable {σ α β γ : Type}

/-- Every item of a list stands in a relation to the list of items before it. -/
def EachAfter (relation : List α → α → Prop) (items : List α) : Prop :=
  ∀ before item after, items = before ++ item :: after → relation before item

namespace EachAfter

variable {relation other : List α → α → Prop} {items : List α}

theorem nil : EachAfter relation [] := by
  intro before item after h
  simp at h

/-- The last item stands after all others. -/
theorem concat_iff {last : α} :
    EachAfter relation (items ++ [last]) ↔ EachAfter relation items ∧ relation items last := by
  constructor
  · intro h
    refine ⟨?_, h items last [] rfl⟩
    intro before item after he
    exact h before item (after ++ [last]) (by simp [he])
  · rintro ⟨h, hlast⟩ before item after he
    rcases List.eq_nil_or_concat after with rfl | ⟨rest, final, rfl⟩
    · obtain ⟨rfl, hitem⟩ := List.append_inj' he rfl
      cases hitem
      exact hlast
    · rw [List.concat_eq_append, ← List.cons_append, ← List.append_assoc] at he
      exact h before item rest (List.append_inj' he rfl).1

/-- Two relations hold throughout a list exactly when both do so by themselves. -/
theorem and_iff : EachAfter (fun before item => relation before item ∧ other before item) items ↔
    EachAfter relation items ∧ EachAfter other items := by
  constructor
  · intro h
    exact ⟨fun before item after he => (h before item after he).1,
      fun before item after he => (h before item after he).2⟩
  · rintro ⟨h, h'⟩ before item after he
    exact ⟨h before item after he, h' before item after he⟩

/-- A relation that ignores the earlier items is a property of all items. -/
theorem forall_iff {property : α → Prop} :
    EachAfter (fun _ item => property item) items ↔ ∀ item ∈ items, property item := by
  constructor
  · intro h item hi
    obtain ⟨before, after, he⟩ := List.append_of_mem hi
    exact h before item after he
  · rintro h before item after rfl
    exact h item (by simp)

/-- Relations with an index hold throughout a list together exactly when each holds by itself. -/
theorem forall_comm {index : Type} {relations : index → List α → α → Prop} :
    EachAfter (fun before item => ∀ i, relations i before item) items ↔
      ∀ i, EachAfter (relations i) items := by
  constructor
  · intro h i before item after he
    exact h before item after he i
  · intro h before item after he i
    exact h i before item after he

/-- Relations that agree at every place of a list agree on the list. -/
theorem congr (h : ∀ before item after, items = before ++ item :: after →
    (relation before item ↔ other before item)) :
    EachAfter relation items ↔ EachAfter other items := by
  constructor
  · intro hr before item after he
    exact (h before item after he).mp (hr before item after he)
  · intro ho before item after he
    exact (h before item after he).mpr (ho before item after he)

/-- Parts gathered from all items are distinct exactly when each item brings distinct parts that no
earlier item brought. -/
theorem nodup_flatMap_iff {parts : α → List β} :
    (items.flatMap parts).Nodup ↔
      EachAfter (fun before item =>
        (parts item).Nodup ∧ ∀ part ∈ parts item, part ∉ before.flatMap parts) items := by
  induction items using List.reverseRecOn with
  | nil => simp [nil]
  | append_singleton items last ih =>
    rw [concat_iff, ← ih, List.flatMap_append, List.nodup_append']
    simp only [List.flatMap_cons, List.flatMap_nil, List.append_nil]
    constructor
    · rintro ⟨hitems, hlast, hdisjoint⟩
      exact ⟨hitems, hlast, fun part hp hm => hdisjoint hm hp⟩
    · rintro ⟨hitems, hlast, hnew⟩
      exact ⟨hitems, hlast, fun part hm hp => hnew part hp hm⟩

end EachAfter

/-- What is reported on the last item is told all other items. -/
theorem withEarlier_concat (f : List α → α → List β) (earlier items : List α) (last : α) :
    withEarlier f earlier (items ++ [last]) =
      withEarlier f earlier items ++ f (earlier ++ items) last := by
  induction items generalizing earlier with
  | nil => simp [withEarlier]
  | cons item items ih => simp [withEarlier, ih]

/-- Nothing is reported exactly when each item is fine after the items before it. -/
theorem withEarlier_eq_nil_iff {f : List α → α → List β} {earlier items : List α} :
    withEarlier f earlier items = [] ↔
      EachAfter (fun before item => f (earlier ++ before) item = []) items := by
  induction items using List.reverseRecOn with
  | nil => simp [withEarlier, EachAfter.nil]
  | append_singleton items last ih =>
    rw [withEarlier_concat, List.append_eq_nil_iff, ih, EachAfter.concat_iff]

section Repetitions

variable [BEq α] [LawfulBEq α]

/-- No place is found for a value exactly when no item has it. -/
theorem firstPlace?_eq_none_iff {items : List (Located σ α)} {value : α} :
    firstPlace? items value = none ↔ value ∉ items.map (·.value) := by
  simp only [firstPlace?, Option.map_eq_none_iff, List.find?_eq_none, beq_iff_eq, List.mem_map,
    not_exists, not_and]

/-- No repetition is reported exactly when the values are distinct and none came up before. -/
theorem repetitions_eq_nil_iff {report : Located σ α → σ → Finding σ}
    {earlier items : List (Located σ α)} :
    repetitions report earlier items = [] ↔ (items.map (·.value)).Nodup ∧
      ∀ value ∈ items.map (·.value), value ∉ earlier.map (·.value) := by
  rw [repetitions, withEarlier_eq_nil_iff]
  induction items using List.reverseRecOn with
  | nil => simp [EachAfter.nil]
  | append_singleton items last ih =>
    rw [EachAfter.concat_iff, ih]
    simp only [Option.toList_eq_nil_iff, Option.map_eq_none_iff, firstPlace?_eq_none_iff,
      List.map_append, List.map_cons, List.map_nil, List.mem_append, not_or, List.nodup_append',
      List.nodup_singleton, true_and, List.disjoint_singleton, List.mem_singleton]
    constructor
    · rintro ⟨⟨hnodup, hnew⟩, hlast, hlast'⟩
      refine ⟨⟨hnodup, hlast'⟩, ?_⟩
      rintro value (hv | rfl)
      · exact hnew value hv
      · exact hlast
    · rintro ⟨⟨hnodup, hlast'⟩, hnew⟩
      exact ⟨⟨hnodup, fun value hv => hnew value (.inl hv)⟩, hnew _ (.inr rfl), hlast'⟩

end Repetitions

end SdlGraph
