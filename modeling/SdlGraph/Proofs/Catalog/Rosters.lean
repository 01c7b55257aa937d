import SdlGraph.Catalog.Roster
import SdlGraph.Proofs.Keyed

/-!
# What is put into rosters

Entries put into a roster one after the other line up in the order in which their names first come
up, and the last entry of a name is the one that stays. Entries under new and distinct names line up
behind those already there. A change that keeps names can be made before or after entries are put.
-/

namespace SdlGraph

variable {α : Type} [Named α]

/-- An entry with a new name goes to the end. -/
theorem putByName_of_not_mem {entry : α} {entries : List α}
    (h : Named.name entry ∉ entries.map Named.name) :
    putByName entry entries = entries ++ [entry] := by
  induction entries with
  | nil => rfl
  | cons head rest ih =>
    rw [List.map_cons, List.mem_cons, not_or] at h
    rw [putByName, if_neg fun he => h.1 he.symm, ih h.2, List.cons_append]

/-- A change that keeps names can be made before or after an entry is put. -/
theorem map_putByName {β : Type} [Named β] {change : α → β}
    (hname : ∀ entry, Named.name (change entry) = Named.name entry) (entry : α)
    (entries : List α) :
    (putByName entry entries).map change = putByName (change entry) (entries.map change) := by
  induction entries with
  | nil => rfl
  | cons head rest ih =>
    by_cases hhead : Named.name head = Named.name entry
    · simp only [putByName, List.map_cons, hname, hhead, if_true]
    · simp only [putByName, List.map_cons, hname, hhead, if_false, ih]

namespace Roster

variable {entries : List α} {roster : Roster α} {entry found : α} {name : String}

/-- Entries with new and distinct names are put at the end in their order. -/
theorem entries_foldl_put {roster : Roster α} {entries : List α}
    (hnodup : (entries.map Named.name).Nodup)
    (hnew : ∀ entry ∈ entries, Named.name entry ∉ roster.names) :
    (entries.foldl put roster).entries = roster.entries ++ entries := by
  induction entries generalizing roster with
  | nil => simp
  | cons entry rest ih =>
    rw [List.map_cons, List.nodup_cons] at hnodup
    have hput : (roster.put entry).entries = roster.entries ++ [entry] :=
      putByName_of_not_mem (hnew entry List.mem_cons_self)
    have hrest : ∀ other ∈ rest, Named.name other ∉ (roster.put entry).names := by
      intro other ho
      rw [names, hput, List.map_append, List.mem_append, not_or]
      refine ⟨hnew other (List.mem_cons_of_mem _ ho), ?_⟩
      intro he
      rw [List.map_singleton, List.mem_singleton] at he
      exact hnodup.1 (he ▸ List.mem_map_of_mem ho)
    rw [List.foldl_cons, ih hnodup.2 hrest, hput, List.append_assoc, List.singleton_append]

/-- A list with distinct names becomes a roster of just these entries. -/
theorem entries_ofList {entries : List α} (hnodup : (entries.map Named.name).Nodup) :
    (ofList entries).entries = entries := by
  rw [ofList, entries_foldl_put hnodup (by simp [names, empty])]
  rfl

/-- Entries with distinct names that are put only under new names leave out those whose name was
taken at the start. -/
theorem entries_foldl_putIfNew {roster : Roster α} {entries : List α}
    (hnodup : (entries.map Named.name).Nodup) :
    (entries.foldl putIfNew roster).entries =
      roster.entries ++ entries.filter fun entry => !roster.contains (Named.name entry) := by
  induction entries generalizing roster with
  | nil => simp
  | cons entry rest ih =>
    rw [List.map_cons, List.nodup_cons] at hnodup
    rw [List.foldl_cons, ih hnodup.2]
    by_cases hc : roster.contains (Named.name entry) = true
    · simp [putIfNew, hc]
    · have hname : Named.name entry ∉ roster.names := fun hm => hc (contains_iff.mpr hm)
      have hput : (roster.put entry).entries = roster.entries ++ [entry] :=
        putByName_of_not_mem hname
      have hfilter : (rest.filter fun other => !(roster.put entry).contains (Named.name other)) =
          rest.filter fun other => !roster.contains (Named.name other) := by
        apply List.filter_congr
        intro other ho
        have hne : Named.name other ≠ Named.name entry :=
          fun he => hnodup.1 (he ▸ List.mem_map_of_mem ho)
        have hiff : (roster.put entry).contains (Named.name other) = true ↔
            roster.contains (Named.name other) = true := by
          simp [contains_iff, names, hput, hne]
        rw [Bool.eq_iff_iff.mpr hiff]
      have hnew : roster.putIfNew entry = roster.put entry := if_neg hc
      rw [hnew, hfilter, hput, List.filter_cons_of_pos (by simpa using hc), List.append_assoc,
        List.singleton_append]

theorem entries_put : (roster.put entry).entries = putByName entry roster.entries := rfl

theorem names_put : (roster.put entry).names =
    if Named.name entry ∈ roster.names then roster.names
    else roster.names ++ [Named.name entry] :=
  map_name_putByName entry roster.entries

/-- An entry that is put is found under its name, and nothing else changes. -/
theorem get?_put : (roster.put entry).get? name =
    if Named.name entry = name then some entry else roster.get? name := by
  obtain ⟨entries, nodup⟩ := roster
  simp only [get?, put]
  clear nodup
  induction entries with
  | nil => by_cases h : Named.name entry = name <;> simp [putByName, h]
  | cons head rest ih =>
    by_cases hhead : Named.name head = Named.name entry
    · rw [putByName, if_pos hhead]
      by_cases h : Named.name entry = name <;> simp [hhead, h]
    · rw [putByName, if_neg hhead]
      by_cases hname : Named.name head = name
      · have hne : ¬Named.name entry = name := fun he => hhead (hname.trans he.symm)
        simp [hname, hne]
      · simp [hname, ih]

theorem ofList_concat : ofList (entries ++ [entry]) = (ofList entries).put entry := by
  rw [ofList, List.foldl_append]
  rfl

/-- Names line up in the order in which they first come up. -/
theorem names_ofList : (ofList entries).names = (entries.map Named.name).eraseDups := by
  -- Entries are put from the front, so the last one is the last one put.
  induction entries using List.reverseRecOn with
  | nil => rfl
  | append_singleton entries entry ih =>
    rw [ofList_concat, names_put, ih, List.map_append, List.eraseDups_append, List.map_singleton,
      List.cons_removeAll]
    simp only [List.mem_eraseDups]
    by_cases h : Named.name entry ∈ entries.map Named.name <;>
      simp [h, List.eraseDups_cons]

/-- The last entry of a name stays. -/
theorem get?_ofList : (ofList entries).get? name = some found ↔
    LastOf Named.name entries name found := by
  induction entries using List.reverseRecOn with
  | nil => exact ⟨nofun, fun h => absurd h.mem (by simp)⟩
  | append_singleton entries entry ih =>
    rw [ofList_concat, get?_put, LastOf.concat_iff]
    split
    · rw [Option.some.injEq, eq_comm]
    · exact ih

theorem mem_ofList : found ∈ (ofList entries).entries ↔
    LastOf Named.name entries (Named.name found) found := by
  rw [← get?_ofList, get?_eq_some_iff, and_iff_left rfl]

/-- A change that keeps names can be made before or after entries are put. -/
theorem entries_ofList_map {β : Type} [Named β] {change : α → β}
    (hname : ∀ entry, Named.name (change entry) = Named.name entry) (entries : List α) :
    (ofList (entries.map change)).entries = (ofList entries).entries.map change := by
  induction entries using List.reverseRecOn with
  | nil => rfl
  | append_singleton entries entry ih =>
    rw [List.map_append, List.map_singleton, ofList_concat, ofList_concat, entries_put,
      entries_put, ih, map_putByName hname]

/-- A roster is what it has under each name, and the order of its names. -/
theorem ext_get? {other : Roster α} (hnames : roster.names = other.names)
    (hget : ∀ name, roster.get? name = other.get? name) : roster = other := by
  have hentries (kept : Roster α) : kept.entries = kept.names.filterMap kept.get? := by
    have hfound : ∀ entry ∈ kept.entries, (kept.get? ∘ Named.name) entry = some entry :=
      fun entry he => get?_eq_some_iff.mpr ⟨he, rfl⟩
    rw [names, List.filterMap_map, List.filterMap_congr hfound, List.filterMap_some]
  refine Roster.ext ?_
  rw [hentries roster, hentries other, hnames, funext hget]

/-- What is found among changed entries that keep their names. -/
theorem get?_of_entries_eq_map {β : Type} [Named β] {change : α → β} {changed : Roster β}
    (hname : ∀ entry, Named.name (change entry) = Named.name entry)
    (h : changed.entries = roster.entries.map change) (name : String) :
    changed.get? name = (roster.get? name).map change := by
  rw [get?, h, List.find?_map]
  simp only [get?, Function.comp_def, hname]

/-- Changed entries that keep their names have the same names. -/
theorem names_of_entries_eq_map {β : Type} [Named β] {change : α → β} {changed : Roster β}
    (hname : ∀ entry, Named.name (change entry) = Named.name entry)
    (h : changed.entries = roster.entries.map change) : changed.names = roster.names := by
  simp only [names, h, List.map_map, Function.comp_def, hname]

end Roster

end SdlGraph
