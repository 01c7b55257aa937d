import SdlGraph.Graph.Grid

/-!
# Schema graphs

A graph has a node for each composite type and an edge for each field that leads from one node to
another. Nodes are numbered from zero in the order in which they were made, and the number of a node
is its identity.
-/

namespace SdlGraph

/-- A hint for drawing a node. -/
inductive ColorClass where
  /-- The node of the type `Query`. -/
  | query
  /-- The node of the type `Mutation`. -/
  | mutation
  /-- Any other node. -/
  | plain
  deriving DecidableEq, Repr

namespace ColorClass

/-- The color class of a type, by its name alone. -/
def ofTypeName : String → ColorClass
  | "Query" => query
  | "Mutation" => mutation
  | _ => plain

/-- The name of a color class. -/
def name : ColorClass → String
  | query => "query"
  | mutation => "mutation"
  | plain => "default"

end ColorClass

/-- A node of the graph. -/
structure Node where
  /-- Its number. -/
  id : Nat
  /-- The name of its type. -/
  name : String
  /-- The fields of its type, in one line each. -/
  summaries : List String
  /-- Its place on the grid. -/
  position : Position
  deriving DecidableEq, Repr

/-- The color class of a node. -/
def Node.colorClass (node : Node) : ColorClass := .ofTypeName node.name

/-- The identity of a node in text. -/
def Node.label (node : Node) : String := "node-" ++ toString node.id

/-- An edge of the graph. -/
structure Edge where
  /-- The number of the node it leaves. -/
  source : Nat
  /-- The number of the node it reaches. -/
  target : Nat
  /-- The field it stands for. -/
  field : String
  /-- The type it leads to. -/
  targetName : String
  deriving DecidableEq, Repr

/-- The identity of an edge in text. -/
def Edge.label (edge : Edge) : String := "edge-" ++ toString edge.source ++ "-" ++ edge.targetName

/-- A graph of types. -/
structure SchemaGraph where
  /-- The nodes, in the order of their numbers. -/
  nodes : List Node
  /-- The edges, in the order in which they were made. -/
  edges : List Edge
  deriving DecidableEq, Repr

namespace SchemaGraph

/-- The graph without nodes. -/
def empty : SchemaGraph := ⟨[], []⟩

/-- Whether a graph has no nodes. -/
def isEmpty (graph : SchemaGraph) : Bool := graph.nodes.isEmpty

/-- The node of a number. -/
def node? (graph : SchemaGraph) (id : Nat) : Option Node := graph.nodes[id]?

/-- The first node of a name. -/
def nodeNamed? (graph : SchemaGraph) (name : String) : Option Node :=
  graph.nodes.find? (·.name == name)

/-- The edges that leave a node. -/
def outgoing (graph : SchemaGraph) (id : Nat) : List Edge := graph.edges.filter (·.source == id)

/-- The edges that reach a node. -/
def incoming (graph : SchemaGraph) (id : Nat) : List Edge := graph.edges.filter (·.target == id)

end SchemaGraph

end SdlGraph
