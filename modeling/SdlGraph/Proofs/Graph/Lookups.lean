import Mathlib.Data.List.Basic
import Mathlib.Data.List.Perm.Basic
import SdlGraph.Proofs.Graph.Depiction

/-!
# Looking things up in a graph

The nodes of a graph are found by number and by name, and its edges by the node they leave or reach.
The graph of a catalog keeps its edges in groups, one group for each node in the order of the
numbers, so the edges that leave the nodes one after the other are all its edges in order. The names
of its nodes are distinct, so the name that an edge gives stands for the node that it reaches.
-/

namespace SdlGraph

section Groups

variable {α : Type} {key : α → Nat}

/-- Where the items of each group have the number of the group as their key, the groups are found
again by key. -/
theorem flatMap_filter_flatten {groups : List (List α)}
    (h : ∀ number group, groups[number]? = some group → ∀ item ∈ group, key item = number) :
    (List.range groups.length).flatMap (fun number => groups.flatten.filter (key · == number)) =
      groups.flatten := by
  induction groups using List.reverseRecOn with
  | nil => rfl
  | append_singleton groups last ih =>
    have hearlier : ∀ number group, groups[number]? = some group →
        ∀ item ∈ group, key item = number := by
      intro number group hgroup
      refine h number group ?_
      rw [List.getElem?_append_left (List.getElem?_eq_some_iff.mp hgroup).1, hgroup]
    have hlast : ∀ item ∈ last, key item = groups.length :=
      h groups.length last (by rw [List.getElem?_append_right (Nat.le_refl _), Nat.sub_self]; rfl)
    have hless : ∀ item ∈ groups.flatten, key item < groups.length := by
      intro item hi
      obtain ⟨group, hgroup, hm⟩ := List.mem_flatten.mp hi
      obtain ⟨number, hlt, rfl⟩ := List.mem_iff_getElem.mp hgroup
      rw [hearlier number _ (List.getElem?_eq_getElem hlt) item hm]
      exact hlt
    have hold : ∀ number ∈ List.range groups.length,
        (groups.flatten ++ last).filter (key · == number) =
          groups.flatten.filter (key · == number) := by
      intro number hn
      have hnone : last.filter (key · == number) = [] := by
        refine List.filter_eq_nil_iff.mpr fun item hi => ?_
        have hlt := List.mem_range.mp hn
        rw [hlast item hi, beq_iff_eq]
        omega
      rw [List.filter_append, hnone, List.append_nil]
    have hnew : (groups.flatten ++ last).filter (key · == groups.length) = last := by
      have hnone : groups.flatten.filter (key · == groups.length) = [] := by
        refine List.filter_eq_nil_iff.mpr fun item hi => ?_
        have hlt := hless item hi
        rw [beq_iff_eq]
        omega
      have hall : last.filter (key · == groups.length) = last :=
        List.filter_eq_self.mpr fun item hi => beq_iff_eq.mpr (hlast item hi)
      rw [List.filter_append, hnone, hall, List.nil_append]
    rw [List.flatten_concat, List.length_append, List.length_singleton, List.range_succ,
      List.flatMap_append, List.flatMap_congr hold, ih hearlier, List.flatMap_singleton, hnew]

/-- Items put together by key are the same items. -/
theorem flatMap_filter_perm {items : List α} {bound : Nat} (h : ∀ item ∈ items, key item < bound) :
    ((List.range bound).flatMap fun number => items.filter (key · == number)).Perm items := by
  induction bound generalizing items with
  | zero =>
    have hnil : items = [] := List.eq_nil_iff_forall_not_mem.mpr fun item hi => by
      have := h item hi
      omega
    rw [hnil]
    exact .nil
  | succ bound ih =>
    have hbelow : ∀ item ∈ items.filter fun item => !(key item == bound), key item < bound := by
      intro item hi
      obtain ⟨hm, hne⟩ := List.mem_filter.mp hi
      have hlt := h item hm
      rw [Bool.not_eq_true', beq_eq_false_iff_ne] at hne
      omega
    have hearlier := ih hbelow
    have hsame : ∀ number ∈ List.range bound,
        items.filter (key · == number) =
          (items.filter fun item => !(key item == bound)).filter (key · == number) := by
      intro number hn
      have hlt := List.mem_range.mp hn
      rw [List.filter_filter]
      refine List.filter_congr fun item _ => ?_
      rw [Bool.eq_iff_iff, Bool.and_eq_true, Bool.not_eq_true', beq_iff_eq, beq_eq_false_iff_ne]
      omega
    rw [List.range_succ, List.flatMap_append, List.flatMap_singleton, List.flatMap_congr hsame]
    refine (hearlier.append_right _).trans ?_
    exact List.perm_append_comm.trans (List.filter_append_perm _ items)

end Groups

/-- The label of an edge tells the number of the node it leaves and the name of the type it leads
to: the digits of the number end at the first dash. -/
theorem Edge.label_eq_iff {edge other : Edge} :
    edge.label = other.label ↔ edge.source = other.source ∧ edge.targetName = other.targetName := by
  have hlabel (edge : Edge) : edge.label.toList =
      "edge-".toList ++ (Nat.toDigits 10 edge.source ++ '-' :: edge.targetName.toList) := by
    simp [label]
  have hcut (n : Nat) (rest : List Char) :
      (Nat.toDigits 10 n ++ '-' :: rest).takeWhile Char.isDigit = Nat.toDigits 10 n := by
    have hdigits : ∀ c ∈ Nat.toDigits 10 n, c.isDigit = true :=
      fun c => Nat.isDigit_of_mem_toDigits (by decide) (by decide)
    have hdash : ('-' :: rest).takeWhile Char.isDigit = [] := rfl
    rw [List.takeWhile_append_of_pos hdigits, hdash, List.append_nil]
  rw [← String.toList_inj, hlabel, hlabel, List.append_right_inj]
  constructor
  · intro h
    have hdigits := congrArg (List.takeWhile Char.isDigit) h
    rw [hcut, hcut] at hdigits
    rw [hdigits, List.append_right_inj, List.cons_inj_right, String.toList_inj] at h
    refine ⟨?_, h⟩
    rw [← @Nat.ofDigitChars_ten_toDigits edge.source, hdigits, Nat.ofDigitChars_ten_toDigits]
  · rintro ⟨hsource, hname⟩
    rw [hsource, hname]

namespace SchemaGraph

/-- The nodes and edges of a graph are found by number, name and ends as its lists and its catalog
have them. -/
structure Consistent (graph : SchemaGraph) (catalog : Catalog) : Prop where
  /-- No two nodes have the same name. -/
  names : (graph.nodes.map (·.name)).Nodup
  /-- By a number, exactly the node with this number is found. -/
  node?_eq_some : ∀ id node, graph.node? id = some node ↔ node ∈ graph.nodes ∧ node.id = id
  /-- There is a node for each number below their count. -/
  isSome_node? : ∀ id, (graph.node? id).isSome = true ↔ id < graph.nodes.length
  /-- By a name, exactly the node with this name is found. -/
  nodeNamed?_eq_some : ∀ name node, graph.nodeNamed? name = some node ↔
    node ∈ graph.nodes ∧ node.name = name
  /-- By a name nothing is found exactly if no object or interface type has it, or it is
  reserved. -/
  nodeNamed?_eq_none : ∀ name, graph.nodeNamed? name = none ↔
    ¬∃ type, catalog.type? name = some type ∧ (type.kind = .object ∨ type.kind = .interface) ∧
      ¬['_', '_'] <+: name.toList
  /-- The edges that leave the nodes one after the other are the edges of the graph. -/
  outgoing : (List.range graph.nodes.length).flatMap graph.outgoing = graph.edges
  /-- The edges that reach the nodes are, up to their order, the edges of the graph. -/
  incoming : ((List.range graph.nodes.length).flatMap graph.incoming).Perm graph.edges
  /-- At each node, edges stand in the order of the graph. -/
  order : ∀ id, (graph.outgoing id).Sublist graph.edges ∧ (graph.incoming id).Sublist graph.edges
  /-- An edge is found at one node that it leaves and at one that it reaches, and nowhere else. -/
  once : ∀ edge ∈ graph.edges, (∃! id, edge ∈ graph.outgoing id) ∧ ∃! id, edge ∈ graph.incoming id
  /-- An edge joins two nodes, the second of which has the name it gives, and stands for a field of
  the type of the first that leads to this name. -/
  ends : ∀ edge ∈ graph.edges, ∃ source target, graph.node? edge.source = some source ∧
    graph.node? edge.target = some target ∧ graph.nodeNamed? edge.targetName = some target ∧
      ∃ type field, catalog.type? source.name = some type ∧ field ∈ type.fields ∧
        field.name = edge.field ∧ field.type.baseName = edge.targetName
  /-- Edges have the same label exactly if they join the same nodes. -/
  labels : ∀ edge ∈ graph.edges, ∀ other ∈ graph.edges,
    edge.label = other.label ↔ edge.source = other.source ∧ edge.target = other.target

variable {graph : SchemaGraph} {layout : Layout} {types : List TypeEntry}

/-- The edges of a graph that shows some types are in groups, one for each type that they leave. -/
theorem Depicts.outgoing (h : graph.Depicts layout types) :
    (List.range graph.nodes.length).flatMap graph.outgoing = graph.edges := by
  obtain ⟨edge?, hedge, hedges⟩ := h.edges
  have hgroups : ∀ number group,
      (types.mapIdx fun source type => type.fields.filterMap (edge? source))[number]? =
        some group → ∀ edge : Edge, edge ∈ group → edge.source = number := by
    intro number group hgroup edge he
    rw [List.getElem?_mapIdx, Option.map_eq_some_iff] at hgroup
    obtain ⟨type, htype, rfl⟩ := hgroup
    obtain ⟨field, -, hsome⟩ := List.mem_filterMap.mp he
    obtain ⟨target, earlier, -, -, -, rfl⟩ :=
      (hedge number (List.getElem?_eq_some_iff.mp htype).1 field edge).mp hsome
    rfl
  have hall := flatMap_filter_flatten hgroups
  rw [List.length_mapIdx, ← hedges] at hall
  rw [h.nodes, List.length_mapIdx]
  exact hall

theorem Depicts.node?_eq (h : graph.Depicts layout types) (id : Nat) :
    graph.node? id = types[id]?.map (Node.ofType layout id) := by
  rw [node?, h.nodes, List.getElem?_mapIdx]

theorem Depicts.map_name_nodes (h : graph.Depicts layout types) :
    graph.nodes.map (·.name) = types.map (·.name) := by
  rw [h.nodes, Projection.map_name_mapIdx]

/-- A number finds the node that has it. -/
theorem Depicts.node?_eq_some_iff (h : graph.Depicts layout types) {id : Nat} {node : Node} :
    graph.node? id = some node ↔ node ∈ graph.nodes ∧ node.id = id := by
  have hnumbered := h.numbered.nodes
  constructor
  · intro hn
    exact ⟨List.mem_of_getElem? hn, hnumbered id node hn⟩
  · rintro ⟨hm, rfl⟩
    obtain ⟨id, hn⟩ := List.mem_iff_getElem?.mp hm
    rw [hnumbered id node hn]
    exact hn

variable {catalog : Catalog}

/-- The types that a graph shows are distinct by name, and so are its nodes. -/
theorem Depicts.nodup_names (h : graph.Depicts layout catalog.shownTypes) :
    (graph.nodes.map (·.name)).Nodup := by
  rw [h.map_name_nodes]
  exact catalog.nodup_map_name_shownTypes

/-- A name finds the node that has it. -/
theorem Depicts.nodeNamed?_eq_some_iff (h : graph.Depicts layout catalog.shownTypes)
    {name : String} {node : Node} :
    graph.nodeNamed? name = some node ↔ node ∈ graph.nodes ∧ node.name = name :=
  find?_key_eq_some_iff h.nodup_names

/-- A name finds nothing if it is not that of a type that is shown. -/
theorem Depicts.nodeNamed?_eq_none_iff (h : graph.Depicts layout catalog.shownTypes)
    {name : String} : graph.nodeNamed? name = none ↔
      ¬∃ type, catalog.type? name = some type ∧ (type.kind = .object ∨ type.kind = .interface) ∧
        ¬['_', '_'] <+: name.toList := by
  have hnames : graph.nodeNamed? name = none ↔ name ∉ graph.nodes.map (·.name) := by
    rw [Option.eq_none_iff_forall_ne_some, List.mem_map, not_exists]
    exact forall_congr' fun node => not_congr h.nodeNamed?_eq_some_iff
  have htype {type : TypeEntry} : catalog.type? name = some type ↔
      type ∈ catalog.types.entries ∧ type.name = name := Roster.get?_eq_some_iff
  rw [hnames, h.map_name_nodes, List.mem_map]
  refine not_congr (exists_congr fun type => ?_)
  rw [Catalog.mem_shownTypes, htype, and_right_comm]
  refine and_congr_right fun hentry => ?_
  rw [hentry.2]

/-- An edge joins two nodes and stands for a field of the type of the first. -/
theorem Depicts.exists_ends (h : graph.Depicts layout catalog.shownTypes) {edge : Edge}
    (he : edge ∈ graph.edges) : ∃ source target,
      graph.node? edge.source = some source ∧ graph.node? edge.target = some target ∧
        graph.nodeNamed? edge.targetName = some target ∧
          ∃ type field, catalog.type? source.name = some type ∧ field ∈ type.fields ∧
            field.name = edge.field ∧ field.type.baseName = edge.targetName := by
  obtain ⟨source, type, field, htype, hfield, target, earlier, -, hearlier, hname, rfl⟩ :=
    h.edge he
  have hsource : graph.node? source = some (.ofType layout source type) := by
    rw [h.node?_eq, htype, Option.map_some]
  have htarget : graph.node? target = some (.ofType layout target earlier) := by
    rw [h.node?_eq, hearlier, Option.map_some]
  have hentry : catalog.type? type.name = some type := Roster.get?_eq_some_iff.mpr
    ⟨(Catalog.mem_shownTypes.mp (List.mem_of_getElem? htype)).1, rfl⟩
  exact ⟨_, _, hsource, htarget,
    h.nodeNamed?_eq_some_iff.mpr ⟨List.mem_of_getElem? htarget, rfl⟩,
    type, field, hentry, hfield, rfl, hname⟩

/-- The node that an edge reaches and the name that it gives determine each other, so the label of
an edge tells which nodes it joins. -/
theorem Depicts.label_eq_iff (h : graph.Depicts layout catalog.shownTypes) {edge other : Edge}
    (he : edge ∈ graph.edges) (ho : other ∈ graph.edges) :
    edge.label = other.label ↔ edge.source = other.source ∧ edge.target = other.target := by
  obtain ⟨-, node, -, htarget, hname, -⟩ := h.exists_ends he
  obtain ⟨-, node', -, htarget', hname', -⟩ := h.exists_ends ho
  rw [Edge.label_eq_iff]
  refine and_congr_right fun _ => ⟨fun hsame => ?_, fun hsame => ?_⟩
  · rw [hsame, hname', Option.some.injEq] at hname
    rw [← (h.node?_eq_some_iff.mp htarget).2, ← (h.node?_eq_some_iff.mp htarget').2, hname]
  · rw [hsame, htarget', Option.some.injEq] at htarget
    rw [← (h.nodeNamed?_eq_some_iff.mp hname).2, ← (h.nodeNamed?_eq_some_iff.mp hname').2, htarget]

/-- An edge leaves one node and reaches one node. -/
theorem existsUnique_ends {edge : Edge} (he : edge ∈ graph.edges) :
    (∃! id, edge ∈ graph.outgoing id) ∧ ∃! id, edge ∈ graph.incoming id := by
  refine ⟨⟨edge.source, List.mem_filter.mpr ⟨he, beq_self_eq_true _⟩, fun id hm => ?_⟩,
    ⟨edge.target, List.mem_filter.mpr ⟨he, beq_self_eq_true _⟩, fun id hm => ?_⟩⟩
  · exact (beq_iff_eq.mp (List.mem_filter.mp hm).2).symm
  · exact (beq_iff_eq.mp (List.mem_filter.mp hm).2).symm

end SchemaGraph

/-- In the graph of a catalog, what is found by number, by name and by the ends of edges agrees with
the lists of the graph and with the catalog. -/
theorem Catalog.consistent_project (layout : Layout) (catalog : Catalog) :
    (catalog.project layout).Consistent catalog := by
  have h := catalog.depicts_project layout
  exact {
    names := h.nodup_names
    node?_eq_some := fun _ _ => h.node?_eq_some_iff
    isSome_node? := fun id => by
      rw [SchemaGraph.node?, Option.isSome_iff_ne_none, ne_eq, List.getElem?_eq_none_iff,
        Nat.not_le]
    nodeNamed?_eq_some := fun _ _ => h.nodeNamed?_eq_some_iff
    nodeNamed?_eq_none := fun _ => h.nodeNamed?_eq_none_iff
    outgoing := h.outgoing
    incoming := flatMap_filter_perm fun edge he => (h.numbered.edges edge he).2
    order := fun _ => ⟨List.filter_sublist, List.filter_sublist⟩
    once := fun _ he => SchemaGraph.existsUnique_ends he
    ends := fun _ he => h.exists_ends he
    labels := fun _ he _ ho => h.label_eq_iff he ho }

end SdlGraph
