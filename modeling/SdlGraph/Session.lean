import SdlGraph.Catalog.Build
import SdlGraph.Failure
import SdlGraph.Graph.Projection
import SdlGraph.Text.Blank

/-!
# Sessions

A session shows at most one schema: that of its last load. A load first clears the session and shows
a schema only at its end, so a load that fails on the way leaves the session empty.
-/

namespace SdlGraph

/-- The catalog of a schema text, or the failure to read it. -/
def parseSchema (source : String) : Except Failure Catalog :=
  match Catalog.ofSource source with
  | .ok catalog => .ok catalog
  | .error problems => .error (.schema problems)

/-- The graph of a schema text on a grid. -/
def visualize (layout : Layout) (source : String) : Except Failure SchemaGraph :=
  match parseSchema source with
  | .ok catalog => .ok (catalog.project layout)
  | .error failure => .error failure

/-- A text that is not blank. -/
def validateSource (source : String) : Except Failure String :=
  if Text.isBlank source then .error .emptySource else .ok source

/-- The text of a schema file. -/
def readSchemaFile (files : FileSystem) (path : String) : Except Failure String :=
  if isSchemaFile path then
    match files.readText path with
    | .ok source => .ok source
    | .error fault => .error (.io fault)
  else .error (.unsupportedFile path)

/-- A schema that has been loaded. -/
structure LoadedSchema where
  /-- Its catalog. -/
  catalog : Catalog
  /-- Its graph. -/
  graph : SchemaGraph

/-- A session with its layout and the schema it shows. -/
structure Session where
  /-- The layout of every graph of the session. -/
  layout : Layout
  /-- The schema shown, if there is one. -/
  current : Option LoadedSchema

namespace Session

/-- A session that shows nothing. -/
def fresh (layout : Layout) : Session := ⟨layout, none⟩

/-- Whether a schema is shown. -/
def isLoaded (session : Session) : Bool := session.current.isSome

/-- The graph of the schema shown. -/
def graph? (session : Session) : Option SchemaGraph := session.current.map (·.graph)

/-- The catalog of the schema shown. -/
def catalog? (session : Session) : Option Catalog := session.current.map (·.catalog)

/-- Show nothing any more. -/
def clear (session : Session) : Session := { session with current := none }

/-- Show a schema. -/
def insert (session : Session) (schema : LoadedSchema) : Session :=
  { session with current := some schema }

/-- Load a schema text. -/
def loadSource (session : Session) (source : String) : Session × Except Failure SchemaGraph :=
  let session := session.clear
  match validateSource source with
  | .error failure => (session, .error failure)
  | .ok source =>
    match parseSchema source with
    | .error failure => (session, .error failure)
    | .ok catalog =>
      let graph := catalog.project session.layout
      (session.insert ⟨catalog, graph⟩, .ok graph)

/-- Load a schema file. -/
def loadFile (session : Session) (files : FileSystem) (path : String) :
    Session × Except Failure SchemaGraph :=
  let session := session.clear
  match readSchemaFile files path with
  | .error failure => (session, .error failure)
  | .ok source => session.loadSource source

/-- Show nothing again. -/
def reset (session : Session) : Session := session.clear

end Session

end SdlGraph
