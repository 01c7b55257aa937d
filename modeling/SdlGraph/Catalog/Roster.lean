/-!
# Lists kept by name

A roster holds entries with distinct names, in the order in which their names first came up. An
entry put under a name that is taken replaces the entry there and keeps its position.
-/

namespace SdlGraph

/-- Things that have a name. -/
class Named (α : Type) where
  /-- The name of a thing. -/
  name : α → String

/-- A thing that is kept under a name has that name. -/
instance {α : Type} : Named (String × α) := ⟨Prod.fst⟩

@[simp]
theorem Named.name_mk {α : Type} (name : String) (kept : α) : Named.name (name, kept) = name := rfl

/-- Put an entry in the place of the first one of its name, or at the end. -/
def putByName {α : Type} [Named α] (entry : α) : List α → List α
  | [] => [entry]
  | head :: rest =>
    if Named.name head = Named.name entry then entry :: rest else head :: putByName entry rest

theorem map_name_putByName {α : Type} [Named α] (entry : α) (entries : List α) :
    (putByName entry entries).map Named.name =
      if Named.name entry ∈ entries.map Named.name then entries.map Named.name
      else entries.map Named.name ++ [Named.name entry] := by
  induction entries with
  | nil => simp [putByName]
  | cons head rest ih =>
    by_cases h : Named.name head = Named.name entry
    · simp [putByName, h]
    · have h' : ¬Named.name entry = Named.name head := fun e => h e.symm
      simp only [putByName, if_neg h, List.map_cons, ih, List.mem_cons, h', false_or]
      split <;> simp

theorem nodup_map_name_putByName {α : Type} [Named α] {entry : α} {entries : List α}
    (h : (entries.map Named.name).Nodup) : ((putByName entry entries).map Named.name).Nodup := by
  rw [map_name_putByName]
  split
  · exact h
  next hn =>
    rw [List.nodup_append]
    refine ⟨h, by simp, ?_⟩
    intro a ha b hb
    rw [List.mem_singleton.mp hb]
    exact fun e => hn (e ▸ ha)

/-- Entries with distinct names. -/
@[ext]
structure Roster (α : Type) [Named α] where
  /-- The entries, in order. -/
  entries : List α
  /-- No two entries have the same name. -/
  nodup : (entries.map Named.name).Nodup
  deriving DecidableEq, Repr

namespace Roster

variable {α : Type} [Named α]

/-- The roster without entries. -/
def empty : Roster α := ⟨[], List.nodup_nil⟩

/-- Put an entry under its name. -/
def put (roster : Roster α) (entry : α) : Roster α :=
  ⟨putByName entry roster.entries, nodup_map_name_putByName roster.nodup⟩

/-- The entry of a name. -/
def get? (roster : Roster α) (name : String) : Option α :=
  roster.entries.find? fun entry => Named.name entry == name

/-- Whether there is an entry of a name. -/
def contains (roster : Roster α) (name : String) : Bool := (roster.get? name).isSome

/-- The names, in order. -/
def names (roster : Roster α) : List String := roster.entries.map Named.name

/-- Put an entry unless its name is taken. -/
def putIfNew (roster : Roster α) (entry : α) : Roster α :=
  if roster.contains (Named.name entry) then roster else roster.put entry

/-- Put the entries of a list one after the other. -/
def ofList (entries : List α) : Roster α := entries.foldl put empty

/-- An entry is found under its own name, and under no other. -/
theorem get?_eq_some_iff {roster : Roster α} {name : String} {entry : α} :
    roster.get? name = some entry ↔ entry ∈ roster.entries ∧ Named.name entry = name := by
  obtain ⟨entries, nodup⟩ := roster
  simp only [get?]
  induction entries with
  | nil => simp
  | cons head rest ih =>
    simp only [List.map_cons, List.nodup_cons] at nodup
    by_cases h : Named.name head = name
    · simp only [List.find?_cons, h, beq_self_eq_true, Option.some.injEq, List.mem_cons]
      constructor
      · rintro rfl
        exact ⟨Or.inl rfl, h⟩
      · rintro ⟨rfl | hm, hn⟩
        · rfl
        · exact absurd (List.mem_map_of_mem (f := Named.name) hm) (by rw [hn, ← h]; exact nodup.1)
    · simp only [List.find?_cons, beq_eq_false_iff_ne.mpr h, List.mem_cons, ih nodup.2]
      constructor
      · rintro ⟨hm, hn⟩
        exact ⟨Or.inr hm, hn⟩
      · rintro ⟨rfl | hm, hn⟩
        · exact absurd hn h
        · exact ⟨hm, hn⟩

theorem contains_iff {roster : Roster α} {name : String} :
    roster.contains name = true ↔ name ∈ roster.names := by
  simp only [contains, Option.isSome_iff_exists, get?_eq_some_iff, names, List.mem_map]

end Roster

end SdlGraph
