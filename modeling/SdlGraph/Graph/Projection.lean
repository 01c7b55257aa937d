import SdlGraph.Catalog.Basic
import SdlGraph.Graph.Basic

/-!
# From catalog to graph

The types of a catalog are visited one after the other. Each object or interface type gets the next
number and a node, unless its name is reserved for introspection or has a number already. A field
becomes an edge when the type it leads to has a number by then; a type never refers to itself by an
edge, nor to one that comes later.
-/

namespace SdlGraph

/-- A projection under way. -/
structure Projection where
  /-- The numbers of the types met so far, by their names. -/
  ids : Roster (String × Nat)
  /-- The placement of the next node. -/
  placer : Placer
  /-- The nodes so far. -/
  nodes : List Node
  /-- The edges so far. -/
  edges : List Edge

namespace Projection

/-- Nothing projected yet. -/
def start : Projection := ⟨.empty, .start, [], []⟩

/-- The number of the node that a field of one type leads to by the name of another: that has to be
a composite type of the catalog whose name is not reserved, and that has a number. -/
def resolve? (catalog : Catalog) (ids : Roster (String × Nat)) (source target : String) :
    Option Nat :=
  if target = source ∨ isReservedName target then none
  else
    match catalog.type? target with
    | none => none
    | some type => if type.isComposite then (ids.get? target).map (·.2) else none

/-- The edge of a field of the type with a name and a number. -/
def edge? (catalog : Catalog) (ids : Roster (String × Nat)) (source : String) (id : Nat)
    (field : FieldEntry) : Option Edge :=
  (resolve? catalog ids source field.target).map fun target =>
    ⟨id, target, field.name, field.target⟩

/-- Give a type the next number, and make its node and the edges of its fields. -/
def add (layout : Layout) (catalog : Catalog) (projection : Projection) (type : TypeEntry) :
    Projection :=
  let id := projection.ids.entries.length
  let ids := projection.ids.put (type.name, id)
  { ids
    placer := projection.placer.advance layout
    nodes := projection.nodes ++
      [⟨id, type.name, type.fields.map (·.summary), projection.placer.next⟩]
    edges := projection.edges ++ type.fields.filterMap (edge? catalog ids type.name id) }

/-- Visit a type of the catalog. -/
def visit (layout : Layout) (catalog : Catalog) (projection : Projection) (type : TypeEntry) :
    Projection :=
  if isReservedName type.name then projection
  else if !type.isComposite then projection
  else if projection.ids.contains type.name then projection
  else projection.add layout catalog type

/-- The graph made so far. -/
def graph (projection : Projection) : SchemaGraph := ⟨projection.nodes, projection.edges⟩

end Projection

/-- The graph of a catalog on a grid. -/
def Catalog.project (layout : Layout) (catalog : Catalog) : SchemaGraph :=
  (catalog.types.entries.foldl (Projection.visit layout catalog) .start).graph

end SdlGraph
