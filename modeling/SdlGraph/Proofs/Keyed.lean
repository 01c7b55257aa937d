import Mathlib.Data.List.Induction
import Mathlib.Data.List.Nodup

/-!
# Lists with keys

Every item of a list has a key. Where the keys are distinct, an item is found by its key alone.
Where they are not, the last item of a key is the one that counts.
-/

namespace SdlGraph

variable {α β : Type} {key : α → String}

/-- Among entries with distinct keys, a search by key finds exactly the entry of that key. -/
theorem find?_key_eq_some_iff {entries : List α} {name : String} {entry : α}
    (h : (entries.map key).Nodup) :
    entries.find? (key · == name) = some entry ↔ entry ∈ entries ∧ key entry = name := by
  constructor
  · intro hf
    exact ⟨List.mem_of_find?_eq_some hf, by simpa using List.find?_some hf⟩
  · rintro ⟨hm, hk⟩
    obtain ⟨found, hf⟩ : ∃ found, entries.find? (key · == name) = some found :=
      Option.isSome_iff_exists.mp (List.find?_isSome.mpr ⟨entry, hm, by simpa using hk⟩)
    have hfk : key found = name := by simpa using List.find?_some hf
    have he : found = entry :=
      List.inj_on_of_nodup_map h (List.mem_of_find?_eq_some hf) hm (hfk.trans hk.symm)
    rw [hf, he]

/-- Among items with distinct keys, one item has the key of a given item. -/
theorem filter_key_eq_singleton {κ : Type} [BEq κ] [LawfulBEq κ] {key : α → κ} {items : List α}
    {item : α} (hnodup : (items.map key).Nodup) (hm : item ∈ items) :
    (items.filter fun other => key other == key item) = [item] := by
  induction items with
  | nil => simp at hm
  | cons head rest ih =>
    rw [List.map_cons, List.nodup_cons] at hnodup
    rcases List.mem_cons.mp hm with rfl | hm
    · rw [List.filter_cons_of_pos (by simp), List.filter_eq_nil_iff.mpr]
      intro other ho he
      exact hnodup.1 (List.mem_map.mpr ⟨other, ho, by simpa using he⟩)
    · have hne : key head ≠ key item :=
        fun he => hnodup.1 (List.mem_map.mpr ⟨item, hm, he.symm⟩)
      rw [List.filter_cons_of_neg (by simpa using hne), ih hnodup.2 hm]

/-- An item is the last one of a key in a list. -/
def LastOf (key : α → String) (items : List α) (name : String) (item : α) : Prop :=
  ∃ before after, items = before ++ item :: after ∧ key item = name ∧
    ∀ later ∈ after, key later ≠ name

namespace LastOf

variable {items : List α} {name : String} {item last : α}

theorem mem (h : LastOf key items name item) : item ∈ items := by
  obtain ⟨before, after, rfl, -, -⟩ := h
  exact List.mem_append_right _ List.mem_cons_self

/-- One more item is the last one of its key, and of no other. -/
theorem concat_iff : LastOf key (items ++ [last]) name item ↔
    if key last = name then item = last else LastOf key items name item := by
  split
  next hname =>
    constructor
    · rintro ⟨before, after, he, -, hlater⟩
      rcases List.eq_nil_or_concat after with rfl | ⟨rest, final, rfl⟩
      · exact (List.singleton_inj.mp (List.append_inj' he rfl).2).symm
      · rw [List.concat_eq_append, ← List.cons_append, ← List.append_assoc] at he
        have hfinal : last = final := List.singleton_inj.mp (List.append_inj' he rfl).2
        exact absurd (hfinal ▸ hname) (hlater final (by simp))
    · rintro rfl
      exact ⟨items, [], rfl, hname, by simp⟩
  next hname =>
    constructor
    · rintro ⟨before, after, he, hi, hlater⟩
      rcases List.eq_nil_or_concat after with rfl | ⟨rest, final, rfl⟩
      · exact absurd (List.singleton_inj.mp (List.append_inj' he rfl).2 ▸ hi) hname
      · rw [List.concat_eq_append, ← List.cons_append, ← List.append_assoc] at he
        exact ⟨before, rest, (List.append_inj' he rfl).1, hi,
          fun later hl => hlater later (by simp [hl])⟩
    · rintro ⟨before, after, rfl, hi, hlater⟩
      refine ⟨before, after ++ [last], by simp, hi, ?_⟩
      intro later hl
      rcases List.mem_append.mp hl with hl | hl
      · exact hlater later hl
      · exact List.mem_singleton.mp hl ▸ hname

/-- The last item of a key among images is the image of the last one. -/
theorem map_iff {f : β → α} {items : List β} :
    LastOf key (items.map f) name item ↔
      ∃ source, LastOf (key ∘ f) items name source ∧ f source = item := by
  constructor
  · rintro ⟨before, after, he, hi, hlater⟩
    obtain ⟨before, rest, rfl, rfl, hrest⟩ := List.map_eq_append_iff.mp he
    obtain ⟨source, after, rfl, rfl, rfl⟩ := List.map_eq_cons_iff.mp hrest
    exact ⟨source, ⟨before, after, rfl, hi,
      fun later hl => hlater (f later) (List.mem_map_of_mem hl)⟩, rfl⟩
  · rintro ⟨source, ⟨before, after, rfl, hi, hlater⟩, rfl⟩
    refine ⟨before.map f, after.map f, by simp, hi, ?_⟩
    intro later hl
    obtain ⟨other, ho, rfl⟩ := List.mem_map.mp hl
    exact hlater other ho

/-- The last item of a key in two lists is that of the second, if it has one. -/
theorem append_iff {more : List α} : LastOf key (items ++ more) name item ↔
    LastOf key more name item ∨
      LastOf key items name item ∧ ∀ other ∈ more, key other ≠ name := by
  induction more using List.reverseRecOn with
  | nil =>
    rw [List.append_nil]
    exact ⟨fun h => .inr ⟨h, by simp⟩, fun h => h.elim (fun h => absurd h.mem (by simp)) (·.1)⟩
  | append_singleton more last ih =>
    rw [← List.append_assoc, concat_iff, concat_iff, ih]
    by_cases hname : key last = name
    · have hall : ¬∀ other ∈ more ++ [last], key other ≠ name :=
        fun h => h last (by simp) hname
      simp only [hname, if_true, hall, and_false, or_false]
    · simp [hname, or_imp, forall_and]

end LastOf

end SdlGraph
