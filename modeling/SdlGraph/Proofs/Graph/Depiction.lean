import Mathlib.Data.List.Induction
import Mathlib.Logic.Relation
import SdlGraph.Graph.Projection
import SdlGraph.Proofs.Catalog.Rosters

/-!
# What a graph shows of its catalog

The graph of a catalog has a node for each object and interface type whose name is not reserved, in
the order of the catalog, and an edge for each field that leads to an earlier one of these types.
`SchemaGraph.Depicts` says this of any list of types. Visiting one more type numbers it and adds its
node and the edges of its fields, so the numbers of the first types are known at every step, and
with them what a field can lead to.
-/

namespace SdlGraph

/-- The types of a catalog that its graph shows, in order: object and interface types whose names do
not start with two underscores. -/
def Catalog.shownTypes (catalog : Catalog) : List TypeEntry :=
  catalog.types.entries.filter fun type =>
    (type.kind = .object ∨ type.kind = .interface) ∧ ¬['_', '_'] <+: type.name.toList

theorem Catalog.mem_shownTypes {catalog : Catalog} {type : TypeEntry} :
    type ∈ catalog.shownTypes ↔ type ∈ catalog.types.entries ∧
      (type.kind = .object ∨ type.kind = .interface) ∧ ¬['_', '_'] <+: type.name.toList := by
  rw [shownTypes, List.mem_filter, decide_eq_true_iff]

theorem Catalog.nodup_map_name_shownTypes (catalog : Catalog) :
    (catalog.shownTypes.map (·.name)).Nodup :=
  (List.filter_sublist.map _).nodup catalog.types.nodup

/-- The node of a type with a number. -/
def Node.ofType (layout : Layout) (id : Nat) (type : TypeEntry) : Node :=
  ⟨id, type.name, type.fields.map fun field => field.name ++ ": " ++ field.type.render,
    (Placer.start.after layout id).next⟩

/-- An edge stands for a field of the type with a number: it leads to an earlier type, the one that
is under the wrappers of the type of the field. -/
def Edge.StandsFor (types : List TypeEntry) (source : Nat) (field : FieldEntry) (edge : Edge) :
    Prop :=
  ∃ target type, target < source ∧ types[target]? = some type ∧
    field.type.baseName = type.name ∧ edge = ⟨source, target, field.name, type.name⟩

namespace SchemaGraph

/-- A graph shows a list of types on a grid. -/
structure Depicts (graph : SchemaGraph) (layout : Layout) (types : List TypeEntry) : Prop where
  /-- There is one node for each type, in order. -/
  nodes : graph.nodes = types.mapIdx (Node.ofType layout)
  /-- There is one edge for each field that leads to an earlier type, in order. -/
  edges : ∃ edge? : Nat → FieldEntry → Option Edge,
    (∀ source < types.length, ∀ field edge,
      edge? source field = some edge ↔ edge.StandsFor types source field) ∧
      graph.edges =
        (types.mapIdx fun source type => type.fields.filterMap (edge? source)).flatten

/-- The numbers in a graph are those of its nodes. -/
structure Numbered (graph : SchemaGraph) : Prop where
  /-- The nodes are numbered from zero, in order. -/
  nodes : ∀ id node, graph.node? id = some node → node.id = id
  /-- Edges join nodes of the graph. -/
  edges : ∀ edge ∈ graph.edges,
    edge.source < graph.nodes.length ∧ edge.target < graph.nodes.length

/-- Edges lead from one node to another. -/
def Joined (graph : SchemaGraph) (source target : Nat) : Prop :=
  ∃ edge ∈ graph.edges, edge.source = source ∧ edge.target = target

end SchemaGraph

theorem isReservedName_iff {name : String} :
    isReservedName name = true ↔ ['_', '_'] <+: name.toList := by
  rw [isReservedName, List.isPrefixOf_iff_prefix]

theorem TypeEntry.isComposite_iff {type : TypeEntry} :
    type.isComposite = true ↔ type.kind = .object ∨ type.kind = .interface := by
  unfold TypeEntry.isComposite
  cases type.kind <;> simp [TypeKind.isComposite]

namespace Projection

variable {layout : Layout} {catalog : Catalog} {projection : Projection} {types : List TypeEntry}
  {type : TypeEntry}

/-- A type that is not shown is passed over. -/
theorem visit_of_not_shown
    (h : ¬((type.kind = .object ∨ type.kind = .interface) ∧ ¬['_', '_'] <+: type.name.toList)) :
    visit layout catalog projection type = projection := by
  rw [← TypeEntry.isComposite_iff, ← isReservedName_iff] at h
  rw [visit]
  split
  next => rfl
  next hname =>
    have hkind : type.isComposite = false := Bool.eq_false_iff.mpr fun hkind => h ⟨hkind, hname⟩
    rw [hkind]
    rfl

/-- A type that is shown is added when its name has no number yet. -/
theorem visit_of_shown
    (h : (type.kind = .object ∨ type.kind = .interface) ∧ ¬['_', '_'] <+: type.name.toList)
    (hnew : type.name ∉ projection.ids.names) :
    visit layout catalog projection type = add layout catalog projection type := by
  rw [← TypeEntry.isComposite_iff, ← isReservedName_iff] at h
  rw [visit, if_neg h.2, h.1, if_neg (by decide), if_neg (mt Roster.contains_iff.mp hnew)]

/-- The projection of a list of types that are all shown. -/
def ofTypes (layout : Layout) (catalog : Catalog) (types : List TypeEntry) : Projection :=
  types.foldl (add layout catalog) start

theorem ofTypes_concat : ofTypes layout catalog (types ++ [type]) =
    add layout catalog (ofTypes layout catalog types) type := by
  rw [ofTypes, List.foldl_append]
  rfl

/-- Numbering the names of types keeps the names. -/
theorem map_name_numbered : (types.mapIdx fun id type => (type.name, id)).map Named.name =
    types.map (·.name) :=
  List.ext_getElem (by simp) fun id _ _ => by simp

/-- Types with distinct names are numbered in order. -/
theorem ids_ofTypes (hnodup : (types.map (·.name)).Nodup) :
    (ofTypes layout catalog types).ids.entries = types.mapIdx fun id type => (type.name, id) := by
  induction types using List.reverseRecOn with
  | nil => rfl
  | append_singleton types type ih =>
    rw [List.map_append, List.nodup_append'] at hnodup
    obtain ⟨htypes, -, hdisjoint⟩ := hnodup
    have hids := ih htypes
    have hlength : (ofTypes layout catalog types).ids.entries.length = types.length := by
      rw [hids, List.length_mapIdx]
    have hnew : Named.name (type.name, types.length) ∉
        (ofTypes layout catalog types).ids.entries.map Named.name := by
      rw [hids, map_name_numbered]
      exact fun hm => hdisjoint hm List.mem_cons_self
    rw [ofTypes_concat, List.mapIdx_concat, ← hids]
    simp only [add, hlength]
    exact putByName_of_not_mem hnew

theorem names_ids_ofTypes (hnodup : (types.map (·.name)).Nodup) :
    (ofTypes layout catalog types).ids.names = types.map (·.name) := by
  rw [Roster.names, ids_ofTypes hnodup, map_name_numbered]

theorem length_ids_ofTypes (hnodup : (types.map (·.name)).Nodup) :
    (ofTypes layout catalog types).ids.entries.length = types.length := by
  rw [ids_ofTypes hnodup, List.length_mapIdx]

/-- The number of a name is that of the type with this name. -/
theorem get?_ids_ofTypes (hnodup : (types.map (·.name)).Nodup) {name : String} {id : Nat} :
    ((ofTypes layout catalog types).ids.get? name).map (·.2) = some id ↔
      ∃ type, types[id]? = some type ∧ type.name = name := by
  simp only [Option.map_eq_some_iff, Roster.get?_eq_some_iff, ids_ofTypes hnodup,
    List.mem_iff_getElem?, List.getElem?_mapIdx]
  constructor
  · rintro ⟨-, ⟨⟨number, type, htype, rfl⟩, rfl⟩, rfl⟩
    exact ⟨type, htype, rfl⟩
  · rintro ⟨type, htype, rfl⟩
    exact ⟨_, ⟨⟨id, type, htype, rfl⟩, rfl⟩, rfl⟩

/-- The next node goes where it would go after as many nodes as there are types. -/
theorem placer_ofTypes :
    (ofTypes layout catalog types).placer = Placer.start.after layout types.length := by
  induction types using List.reverseRecOn with
  | nil => rfl
  | append_singleton types type ih =>
    rw [ofTypes_concat, List.length_append, List.length_singleton, Placer.after_succ, ← ih]
    rfl

theorem map_name_mapIdx :
    (types.mapIdx (Node.ofType layout)).map (·.name) = types.map (·.name) :=
  List.ext_getElem (by simp) fun id _ _ => by simp [Node.ofType]

/-- Every type gets its node. -/
theorem nodes_ofTypes (hnodup : (types.map (·.name)).Nodup) :
    (ofTypes layout catalog types).nodes = types.mapIdx (Node.ofType layout) := by
  induction types using List.reverseRecOn with
  | nil => rfl
  | append_singleton types type ih =>
    rw [List.map_append] at hnodup
    have htypes := hnodup.of_append_left
    rw [ofTypes_concat, List.mapIdx_concat, ← ih htypes]
    simp only [add, length_ids_ofTypes htypes, placer_ofTypes]
    rfl

/-- Every type gets the edges of its fields, found by the numbers of the types up to it. -/
theorem edges_ofTypes (hnodup : (types.map (·.name)).Nodup) :
    (ofTypes layout catalog types).edges =
      (types.mapIdx fun source entry => entry.fields.filterMap
        (edge? catalog (ofTypes layout catalog (types.take (source + 1))).ids entry.name
          source)).flatten := by
  induction types using List.reverseRecOn with
  | nil => rfl
  | append_singleton types type ih =>
    rw [List.map_append] at hnodup
    have htypes := hnodup.of_append_left
    have hids : (ofTypes layout catalog ((types ++ [type]).take (types.length + 1))).ids =
        (ofTypes layout catalog types).ids.put (type.name, types.length) := by
      rw [List.take_of_length_le (by simp), ofTypes_concat, add, length_ids_ofTypes htypes]
    rw [List.mapIdx_concat, List.flatten_concat, hids, ofTypes_concat, add,
      length_ids_ofTypes htypes, ih htypes]
    refine congrArg (List.flatten · ++ _) (List.ext_getElem (by simp) fun source h _ => ?_)
    have hle : source + 1 ≤ types.length := by
      rw [List.length_mapIdx] at h
      omega
    rw [List.getElem_mapIdx, List.getElem_mapIdx, List.take_append_of_le_length hle]

/-- Visiting types with distinct names adds those that are shown. -/
theorem foldl_visit (hnodup : (types.map (·.name)).Nodup) :
    types.foldl (visit layout catalog) start = ofTypes layout catalog (types.filter fun type =>
      (type.kind = .object ∨ type.kind = .interface) ∧ ¬['_', '_'] <+: type.name.toList) := by
  induction types using List.reverseRecOn with
  | nil => rfl
  | append_singleton types type ih =>
    rw [List.map_append, List.nodup_append'] at hnodup
    obtain ⟨htypes, -, hdisjoint⟩ := hnodup
    rw [List.foldl_append, ih htypes, List.foldl_cons, List.foldl_nil, List.filter_append]
    by_cases hshown :
        (type.kind = .object ∨ type.kind = .interface) ∧ ¬['_', '_'] <+: type.name.toList
    · rw [List.filter_cons_of_pos (by simpa using hshown), List.filter_nil, ofTypes_concat]
      refine visit_of_shown hshown fun hm => ?_
      rw [names_ids_ofTypes ((List.filter_sublist.map _).nodup htypes)] at hm
      exact hdisjoint ((List.filter_sublist.map _).subset hm) List.mem_cons_self
    · rw [List.filter_cons_of_neg (by simpa using hshown), List.filter_nil,
        List.append_nil, visit_of_not_shown hshown]

/-- Of the types that a graph shows, a later one does not have the name of an earlier one. -/
theorem name_ne_of_earlier {source target : Nat} {earlier : TypeEntry} (hlt : target < source)
    (ht : catalog.shownTypes[target]? = some earlier)
    (hs : catalog.shownTypes[source]? = some type) : earlier.name ≠ type.name := by
  intro he
  have hsame : (catalog.shownTypes.map (·.name))[target]? =
      (catalog.shownTypes.map (·.name))[source]? := by
    rw [List.getElem?_map, List.getElem?_map, ht, hs, Option.map_some, Option.map_some, he]
  have hbound : target < (catalog.shownTypes.map (·.name)).length := by
    rw [List.length_map]
    exact (List.getElem?_eq_some_iff.mp ht).1
  have := (List.getElem?_inj hbound catalog.nodup_map_name_shownTypes).mp hsame
  omega

/-- With the numbers of the types up to a type in hand, its fields lead to the earlier ones: the
type itself has a number, but is not led to. -/
theorem resolve?_ofTypes {source target : Nat} (hs : catalog.shownTypes[source]? = some type)
    {name : String} :
    resolve? catalog (ofTypes layout catalog (catalog.shownTypes.take (source + 1))).ids
        type.name name = some target ↔
      target < source ∧ ∃ earlier, catalog.shownTypes[target]? = some earlier ∧
        earlier.name = name := by
  have hnodup : ((catalog.shownTypes.take (source + 1)).map (·.name)).Nodup :=
    ((List.take_sublist ..).map _).nodup catalog.nodup_map_name_shownTypes
  have hnumber : ((ofTypes layout catalog (catalog.shownTypes.take (source + 1))).ids.get?
      name).map (·.2) = some target ↔ target < source + 1 ∧ ∃ earlier,
        catalog.shownTypes[target]? = some earlier ∧ earlier.name = name := by
    simp only [get?_ids_ofTypes hnodup, List.getElem?_take, Option.ite_none_right_eq_some,
      and_assoc, exists_and_left]
  constructor
  · intro h
    rw [resolve?, Option.ite_none_left_eq_some] at h
    obtain ⟨hname, h⟩ := h
    have hfound : ((ofTypes layout catalog (catalog.shownTypes.take (source + 1))).ids.get?
        name).map (·.2) = some target := by
      cases htype : catalog.type? name with
      | none => rw [htype] at h; cases h
      | some found =>
        rw [htype] at h
        exact (Option.ite_none_right_eq_some.mp h).2
    obtain ⟨hlt, earlier, ht, rfl⟩ := hnumber.mp hfound
    have hne : target ≠ source := by
      rintro rfl
      rw [ht, Option.some.injEq] at hs
      exact hname (.inl (by rw [hs]))
    exact ⟨by omega, earlier, ht, rfl⟩
  · rintro ⟨hlt, earlier, ht, rfl⟩
    obtain ⟨hentry, hkind, hreserved⟩ := Catalog.mem_shownTypes.mp (List.mem_of_getElem? ht)
    have hfound : catalog.type? earlier.name = some earlier :=
      Roster.get?_eq_some_iff.mpr ⟨hentry, rfl⟩
    have hnot : ¬(earlier.name = type.name ∨ isReservedName earlier.name = true) := by
      rw [isReservedName_iff]
      exact not_or.mpr ⟨name_ne_of_earlier hlt ht hs, hreserved⟩
    rw [resolve?, if_neg hnot, hfound]
    dsimp only
    rw [if_pos (TypeEntry.isComposite_iff.mpr hkind)]
    exact hnumber.mpr ⟨by omega, earlier, ht, rfl⟩

/-- The edges of the fields of a type are those that stand for its fields. -/
theorem edge?_ofTypes {source : Nat} (hs : catalog.shownTypes[source]? = some type)
    {field : FieldEntry} {edge : Edge} :
    edge? catalog (ofTypes layout catalog (catalog.shownTypes.take (source + 1))).ids type.name
      source field = some edge ↔ edge.StandsFor catalog.shownTypes source field := by
  simp only [edge?, Option.map_eq_some_iff, resolve?_ofTypes hs]
  constructor
  · rintro ⟨target, ⟨hlt, earlier, ht, hname⟩, rfl⟩
    exact ⟨target, earlier, hlt, ht, hname.symm, by rw [hname]⟩
  · rintro ⟨target, earlier, hlt, ht, hname, rfl⟩
    exact ⟨target, ⟨hlt, earlier, ht, hname.symm⟩, by rw [FieldEntry.target, hname]⟩

end Projection

namespace SchemaGraph

variable {graph : SchemaGraph} {layout : Layout} {types : List TypeEntry}

/-- Every edge of a graph that shows some types stands for a field of one of them. -/
theorem Depicts.edge (h : graph.Depicts layout types) {edge : Edge} (he : edge ∈ graph.edges) :
    ∃ source type field, types[source]? = some type ∧ field ∈ type.fields ∧
      edge.StandsFor types source field := by
  obtain ⟨edge?, hedge, hedges⟩ := h.edges
  rw [hedges] at he
  obtain ⟨found, hfound, hm⟩ := List.mem_flatten.mp he
  obtain ⟨source, hlt, rfl⟩ := List.mem_mapIdx.mp hfound
  obtain ⟨field, hf, hsome⟩ := List.mem_filterMap.mp hm
  exact ⟨source, types[source], field, List.getElem?_eq_getElem hlt, hf,
    (hedge source hlt field edge).mp hsome⟩

/-- The nodes of such a graph are numbered in order, and its edges join them. -/
theorem Depicts.numbered (h : graph.Depicts layout types) : graph.Numbered where
  nodes := by
    intro id node hn
    rw [node?, h.nodes, List.getElem?_mapIdx, Option.map_eq_some_iff] at hn
    obtain ⟨type, -, rfl⟩ := hn
    rfl
  edges := by
    intro edge he
    obtain ⟨source, type, field, hs, -, target, earlier, hlt, ht, -, rfl⟩ := h.edge he
    rw [h.nodes, List.length_mapIdx]
    exact ⟨(List.getElem?_eq_some_iff.mp hs).1, (List.getElem?_eq_some_iff.mp ht).1⟩

/-- Its edges lead back to an earlier type. -/
theorem Depicts.backward (h : graph.Depicts layout types) {edge : Edge} (he : edge ∈ graph.edges) :
    edge.target < edge.source ∧
      ∃ type, types[edge.target]? = some type ∧ type.name = edge.targetName := by
  obtain ⟨source, type, field, -, -, target, earlier, hlt, ht, -, rfl⟩ := h.edge he
  exact ⟨hlt, earlier, ht, rfl⟩

/-- So no node is reached from itself. -/
theorem Depicts.acyclic (h : graph.Depicts layout types) (id : Nat) :
    ¬Relation.TransGen graph.Joined id id := by
  have hlt {source target : Nat} (hj : Relation.TransGen graph.Joined source target) :
      target < source := by
    induction hj with
    | single hj =>
      obtain ⟨edge, he, rfl, rfl⟩ := hj
      exact (h.backward he).1
    | tail _ hj ih =>
      obtain ⟨edge, he, rfl, rfl⟩ := hj
      exact Nat.lt_trans (h.backward he).1 ih
  exact fun hj => Nat.lt_irrefl id (hlt hj)

end SchemaGraph

theorem Catalog.project_eq (layout : Layout) (catalog : Catalog) :
    catalog.project layout = (Projection.ofTypes layout catalog catalog.shownTypes).graph :=
  congrArg Projection.graph (Projection.foldl_visit catalog.types.nodup)

/-- The graph of a catalog shows its types. -/
theorem Catalog.depicts_project (layout : Layout) (catalog : Catalog) :
    (catalog.project layout).Depicts layout catalog.shownTypes where
  nodes := by
    rw [project_eq]
    exact Projection.nodes_ofTypes catalog.nodup_map_name_shownTypes
  edges := by
    refine ⟨fun source field => catalog.shownTypes[source]?.bind fun type =>
      Projection.edge? catalog
        (Projection.ofTypes layout catalog (catalog.shownTypes.take (source + 1))).ids type.name
          source field, ?_, ?_⟩
    · intro source hlt field edge
      simp only [List.getElem?_eq_getElem hlt, Option.bind_some]
      exact Projection.edge?_ofTypes (List.getElem?_eq_getElem hlt)
    · rw [project_eq]
      refine (Projection.edges_ofTypes catalog.nodup_map_name_shownTypes).trans
        (congrArg List.flatten ?_)
      refine List.ext_getElem (by simp) fun source hlt _ => ?_
      rw [List.length_mapIdx] at hlt
      rw [List.getElem_mapIdx, List.getElem_mapIdx]
      simp [List.getElem?_eq_getElem hlt]

/-- The graph of a catalog has exactly the documented nodes and edges: it shows the object and
interface types that are not reserved; nodes are numbered in order and edges join them; every edge
leads back to one of these types, found in the catalog under the name the edge gives; and there is
no way from a node to itself. -/
theorem Catalog.project_exact (layout : Layout) (catalog : Catalog) :
    let graph := catalog.project layout
    graph.Depicts layout catalog.shownTypes ∧ graph.Numbered ∧
      (∀ edge ∈ graph.edges, edge.target < edge.source ∧
        ∃ type ∈ catalog.shownTypes, catalog.type? edge.targetName = some type ∧
          graph.node? edge.target = some (.ofType layout edge.target type)) ∧
      ∀ id, ¬Relation.TransGen graph.Joined id id := by
  have h := catalog.depicts_project layout
  refine ⟨h, h.numbered, ?_, h.acyclic⟩
  intro edge he
  obtain ⟨hlt, type, ht, hname⟩ := h.backward he
  have hm : type ∈ catalog.shownTypes := List.mem_of_getElem? ht
  refine ⟨hlt, type, hm, ?_, ?_⟩
  · exact Roster.get?_eq_some_iff.mpr ⟨(mem_shownTypes.mp hm).1, hname⟩
  · rw [SchemaGraph.node?, h.nodes, List.getElem?_mapIdx, ht, Option.map_some]

end SdlGraph
