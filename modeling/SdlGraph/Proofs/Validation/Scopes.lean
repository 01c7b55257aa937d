import Mathlib.Data.List.Dedup
import Mathlib.Data.List.Perm.Basic
import SdlGraph.Proofs.Validation.Repetition

/-!
# Scopes in which names are not repeated

A scope is a list of items with keys. A check goes through it with the items before each one in
hand, and what it tells of an item depends on those of the same key only; so, up to the order, it
tells what it would tell of each group of items with one key by itself. In such a group the first
item is told nothing, and each later one is told against the first.
-/

namespace SdlGraph

variable {α β γ κ : Type}

section WithEarlier

variable {f g : List α → α → List β} {earlier items : List α}

theorem withEarlier_append (f : List α → α → List β) (earlier items more : List α) :
    withEarlier f earlier (items ++ more) =
      withEarlier f earlier items ++ withEarlier f (earlier ++ items) more := by
  induction items generalizing earlier with
  | nil => simp [withEarlier]
  | cons item items ih => simp [withEarlier, ih]

/-- A check that does not look at earlier items goes through the items one by one. -/
theorem withEarlier_const (f : α → List β) (earlier items : List α) :
    withEarlier (fun _ item => f item) earlier items = items.flatMap f := by
  induction items generalizing earlier with
  | nil => rfl
  | cons item items ih => rw [withEarlier, ih, List.flatMap_cons]

theorem filterMap_withEarlier (select : β → Option γ) (f : List α → α → List β)
    (earlier items : List α) : (withEarlier f earlier items).filterMap select =
      withEarlier (fun before item => (f before item).filterMap select) earlier items := by
  induction items generalizing earlier with
  | nil => rfl
  | cons item items ih => rw [withEarlier, List.filterMap_append, ih, withEarlier]

/-- Checks that agree at every place of a list agree on the list. -/
theorem withEarlier_congr_of_split (h : ∀ before item after, items = before ++ item :: after →
    f (earlier ++ before) item = g (earlier ++ before) item) :
    withEarlier f earlier items = withEarlier g earlier items := by
  induction items generalizing earlier with
  | nil => rfl
  | cons item items ih =>
    have hitem := h [] item items rfl
    rw [List.append_nil] at hitem
    rw [withEarlier, withEarlier, hitem, ih]
    intro before other after he
    rw [List.append_assoc]
    exact h (item :: before) other after (by rw [he, List.cons_append])

theorem withEarlier_congr (h : ∀ before item, f before item = g before item) :
    withEarlier f earlier items = withEarlier g earlier items :=
  withEarlier_congr_of_split fun _ _ _ _ => h _ _

theorem withEarlier_perm (h : ∀ before item, (f before item).Perm (g before item)) :
    (withEarlier f earlier items).Perm (withEarlier g earlier items) := by
  induction items generalizing earlier with
  | nil => exact .nil
  | cons item items ih => exact (h earlier item).append ih

/-- Two checks made together tell what they tell one after the other. -/
theorem withEarlier_append_perm (f g : List α → α → List β) (earlier items : List α) :
    (withEarlier (fun before item => f before item ++ g before item) earlier items).Perm
      (withEarlier f earlier items ++ withEarlier g earlier items) := by
  induction items generalizing earlier with
  | nil => exact .nil
  | cons item items ih =>
    simp only [withEarlier, List.append_assoc]
    refine .append_left _ (((ih _).append_left _).trans ?_)
    rw [← List.append_assoc, ← List.append_assoc]
    exact List.perm_append_comm.append_right _

/-- A check of items that goes through the parts of each item is the check of all the parts. -/
theorem withEarlier_flatMap {f : List α → α → List γ} {parts : α → List β}
    {check : List β → β → List γ}
    (h : ∀ before item, f before item = withEarlier check (before.flatMap parts) (parts item))
    (items : List α) : withEarlier f [] items = withEarlier check [] (items.flatMap parts) := by
  induction items using List.reverseRecOn with
  | nil => rfl
  | append_singleton items last ih =>
    rw [withEarlier_concat, List.flatMap_append, withEarlier_append, ih, h, List.nil_append,
      List.nil_append, List.flatMap_singleton]

/-- The same, where each item has one part at most. -/
theorem withEarlier_filterMap {f : List α → α → List γ} {pick : α → Option β}
    {check : List β → β → List γ} (h : ∀ before item,
      f before item = withEarlier check (before.filterMap pick) ([item].filterMap pick))
    (items : List α) : withEarlier f [] items = withEarlier check [] (items.filterMap pick) := by
  have hsingle (items : List α) :
      items.filterMap pick = items.flatMap fun item => [item].filterMap pick := by
    rw [List.filterMap_eq_flatMap_toList]
    refine List.flatMap_congr fun item _ => ?_
    cases hpick : pick item <;> simp [hpick]
  rw [hsingle]
  refine withEarlier_flatMap (fun before item => ?_) items
  rw [h, hsingle before]

end WithEarlier

variable [DecidableEq κ] {key : α → κ}

/-- The items of a list in groups of one key each. -/
def groups (key : α → κ) (items : List α) : List (List α) :=
  (items.map key).dedup.map fun value => items.filter (key · = value)

/-- The items of a group have their key in common. -/
theorem key_eq_of_mem_groups {items group : List α} (hgroup : group ∈ groups key items) :
    ∃ value, ∀ item ∈ group, key item = value := by
  obtain ⟨value, -, rfl⟩ := List.mem_map.mp hgroup
  exact ⟨value, fun item hi => of_decide_eq_true (List.mem_filter.mp hi).2⟩

theorem sublist_of_mem_groups {items group : List α} (hgroup : group ∈ groups key items) :
    group.Sublist items := by
  obtain ⟨value, -, rfl⟩ := List.mem_map.mp hgroup
  exact List.filter_sublist

/-- What stands beside one of several different values stands there once. -/
theorem flatMap_ite_eq {values : List κ} (hnodup : values.Nodup) {value : κ}
    (hmem : value ∈ values) (told : List β) :
    (values.flatMap fun other => if value = other then told else []) = told := by
  induction values with
  | nil => cases hmem
  | cons first rest ih =>
    rw [List.flatMap_cons]
    obtain ⟨hfirst, hrest⟩ := List.nodup_cons.mp hnodup
    by_cases heq : value = first
    · subst heq
      have hnone : ∀ other ∈ rest, (if value = other then told else []) = [] := by
        intro other ho
        refine if_neg ?_
        rintro rfl
        exact hfirst ho
      rw [if_pos rfl, List.flatMap_eq_nil_iff.mpr hnone, List.append_nil]
    · rw [if_neg heq, List.nil_append]
      exact ih hrest (List.mem_of_ne_of_mem heq hmem)

/-- Behind the items so far, an item adds to what is told of the group that it belongs to. -/
theorem withEarlier_filter_concat {check : List α → α → List β}
    (h : ∀ before item, check before item = check (before.filter (key · = key item)) item)
    (items : List α) (last : α) (value : κ) :
    withEarlier check [] ((items ++ [last]).filter (key · = value)) =
      withEarlier check [] (items.filter (key · = value)) ++
        if key last = value then check items last else [] := by
  rw [List.filter_append]
  by_cases heq : key last = value
  · subst heq
    rw [List.filter_cons_of_pos (by simp), List.filter_nil, withEarlier_concat, List.nil_append,
      ← h, if_pos rfl]
  · rw [List.filter_cons_of_neg (by simpa using heq), List.filter_nil, List.append_nil,
      if_neg heq, List.append_nil]

/-- A check that depends on earlier items of the same key only tells, up to the order, what it tells
of the groups. -/
theorem withEarlier_groups {check : List α → α → List β}
    (h : ∀ before item, check before item = check (before.filter (key · = key item)) item)
    (items : List α) :
    (withEarlier check [] items).Perm ((groups key items).flatMap (withEarlier check [])) := by
  -- The induction on the items leaves the keys as they are.
  suffices hall : ∀ values : List κ, values.Nodup → (∀ item ∈ items, key item ∈ values) →
      (withEarlier check [] items).Perm (values.flatMap fun value =>
        withEarlier check [] (items.filter (key · = value))) by
    rw [groups, List.flatMap_map]
    refine hall _ (List.nodup_dedup _) fun item hi => ?_
    exact List.mem_dedup.mpr (List.mem_map_of_mem hi)
  intro values hnodup
  induction items using List.reverseRecOn with
  | nil =>
    intro _
    simp [withEarlier]
  | append_singleton items last ih =>
    intro hcovers
    have hlast : key last ∈ values := hcovers last (by simp)
    rw [withEarlier_concat, List.nil_append, funext (withEarlier_filter_concat h items last)]
    refine .trans ?_ (List.flatMap_append_perm values _ _)
    rw [flatMap_ite_eq hnodup hlast]
    exact (ih fun item hi => hcovers item (List.mem_append_left _ hi)).append_right _

/-- So it tells what can be told of each group by itself. -/
theorem withEarlier_perm_groups {check : List α → α → List β} {told : List α → List β}
    (h : ∀ before item, check before item = check (before.filter (key · = key item)) item)
    (htold : ∀ value group, (∀ item ∈ group, key item = value) →
      withEarlier check [] group = told group) (items : List α) :
    (withEarlier check [] items).Perm ((groups key items).flatMap told) := by
  refine (withEarlier_groups h items).trans (.of_eq (List.flatMap_congr fun group hg => ?_))
  obtain ⟨value, hvalue⟩ := key_eq_of_mem_groups hg
  exact htold value group hvalue

/-- Each item of a list but the first is told against the first. -/
def againstFirst (tell : α → α → β) : List α → List β
  | [] => []
  | first :: rest => rest.map (tell · first)

/-- An item is told against the first earlier one of its key. -/
def tellRepeated (key : α → κ) (tell : α → α → β) (before : List α) (item : α) : List β :=
  ((before.find? (key · = key item)).map (tell item)).toList

/-- Where an earlier item is known to be the first of a key, all items of the key are told against
it. -/
theorem withEarlier_eq_map {check : List α → α → List β} {tell : α → β} {before items : List α}
    (h : ∀ more, ∀ item ∈ items, check (before ++ more) item = [tell item]) :
    withEarlier check before items = items.map tell := by
  induction items generalizing before with
  | nil => rfl
  | cons item items ih =>
    rw [withEarlier, List.map_cons, ih, ← List.append_nil before,
      h [] item List.mem_cons_self, List.singleton_append]
    intro more other ho
    rw [List.append_assoc]
    exact h _ other (List.mem_cons_of_mem _ ho)

/-- Repeated items are told against the first of their group. -/
theorem tellRepeated_perm (key : α → κ) (tell : α → α → β) (items : List α) :
    (withEarlier (tellRepeated key tell) [] items).Perm
      ((groups key items).flatMap (againstFirst tell)) := by
  have hfilter (before : List α) (item : α) : tellRepeated key tell before item =
      tellRepeated key tell (before.filter (key · = key item)) item := by
    simp [tellRepeated, List.find?_filter]
  refine withEarlier_perm_groups hfilter (fun value group hvalue => ?_) items
  cases group with
  | nil => rfl
  | cons first rest =>
    rw [List.forall_mem_cons] at hvalue
    rw [withEarlier, againstFirst, List.nil_append]
    refine withEarlier_eq_map fun more item hi => ?_
    simp [tellRepeated, hvalue.1, hvalue.2 item hi]

/-- Items in front of the first one that is free are told by themselves, the later ones against
that one. -/
def againstFirstFree (taken : α → Bool) (tell : α → Option α → β) (items : List α) : List β :=
  (items.takeWhile taken).map (tell · none) ++
    againstFirst (fun item first => tell item (some first)) (items.dropWhile taken)

/-- An item is told against the first earlier free one of its key. If there is none, it is told by
itself unless it is free. -/
def tellTaken (key : α → κ) (taken : α → Bool) (tell : α → Option α → β) (before : List α)
    (item : α) : List β :=
  match (before.filter (!taken ·)).find? (key · = key item) with
  | some first => [tell item (some first)]
  | none => if taken item then [tell item none] else []

/-- In a group, items are told by themselves up to the first free one, and then against it: as long
as no item that has been gone through is free, none is told against an earlier one. -/
theorem withEarlier_tellTaken {taken : α → Bool} {tell : α → Option α → β} {before group : List α}
    {value : κ} (hvalue : ∀ item ∈ group, key item = value)
    (hbefore : ∀ item ∈ before, taken item) :
    withEarlier (tellTaken key taken tell) before group = againstFirstFree taken tell group := by
  induction group generalizing before with
  | nil => rfl
  | cons item rest ih =>
    obtain ⟨hitem, hrest⟩ := List.forall_mem_cons.mp hvalue
    have hnone : before.filter (!taken ·) = [] :=
      List.filter_eq_nil_iff.mpr fun other ho => by simp [hbefore other ho]
    cases htaken : taken item with
    | true =>
      rw [withEarlier, ih hrest]
      · simp only [tellTaken, againstFirstFree, hnone, htaken, List.find?_nil, List.takeWhile_cons,
          List.dropWhile_cons, List.map_cons, if_true, List.cons_append, List.nil_append]
      · exact List.forall_mem_append.mpr ⟨hbefore, List.forall_mem_singleton.mpr htaken⟩
    | false =>
      have hafter : withEarlier (tellTaken key taken tell) (before ++ [item]) rest =
          rest.map fun other => tell other (some item) := by
        refine withEarlier_eq_map fun more other ho => ?_
        have hfree : (before ++ [item] ++ more).filter (!taken ·) =
            item :: more.filter (!taken ·) := by
          rw [List.filter_append, List.filter_append, hnone, List.nil_append,
            List.filter_cons_of_pos (by simp [htaken]), List.filter_nil, List.singleton_append]
        have hsame : key item = key other := hitem.trans (hrest other ho).symm
        rw [tellTaken, hfree, List.find?_cons_of_pos (by simpa using hsame)]
      rw [withEarlier, hafter]
      simp only [tellTaken, againstFirstFree, againstFirst, hnone, htaken, List.find?_nil,
        List.takeWhile_cons, List.dropWhile_cons, List.map_nil, Bool.false_eq_true, if_false]

/-- Items are told by themselves up to the first free one of their group, and then against it. -/
theorem tellTaken_perm (key : α → κ) (taken : α → Bool) (tell : α → Option α → β)
    (items : List α) : (withEarlier (tellTaken key taken tell) [] items).Perm
      ((groups key items).flatMap (againstFirstFree taken tell)) := by
  have hfilter (before : List α) (item : α) : tellTaken key taken tell before item =
      tellTaken key taken tell (before.filter (key · = key item)) item := by
    simp [tellTaken, List.find?_filter, List.filter_filter]
  exact withEarlier_perm_groups hfilter
    (fun _ _ hvalue => withEarlier_tellTaken hvalue (List.forall_mem_nil _)) items

end SdlGraph
