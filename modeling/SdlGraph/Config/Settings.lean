import SdlGraph.Config.Toml.Reader
import SdlGraph.Failure
import SdlGraph.Graph.Grid

/-!
# Configuration

The layout of the grid is configured in the table `layout` of a TOML text. What is not given there
keeps its standard value. Keys that are not known are ignored, but their numbers must be readable. A
configuration is looked for at an explicit path, in the working directory and in the home directory,
in this order.
-/

namespace SdlGraph

namespace Toml.Item

/-- The 32-bit integer that an item is. -/
def int32? : Item → Option Int32
  | integer n => if minCoordinate ≤ n ∧ n ≤ maxCoordinate then some (Int32.ofInt n) else none
  | _ => none

/-- The unsigned 64-bit integer that an item is. -/
def uint64? : Item → Option UInt64
  | integer n => if 0 ≤ n ∧ n.toNat < UInt64.size then some (UInt64.ofNat n.toNat) else none
  | _ => none

end Toml.Item

namespace Layout

open Toml

/-- A setting that keeps its standard value when it is not given. -/
def setting {α : Type} (read? : Item → Option α) (standard : α) : Option Item → Option α
  | some item => read? item
  | none => some standard

/-- The layout with given settings for row spacing, column spacing and column capacity. -/
def ofSettings? (rowSpacing columnSpacing columnCapacity : Option Item) : Option Layout := do
  let rowSpacing ← setting Item.int32? standard.rowSpacing rowSpacing
  let columnSpacing ← setting Item.int32? standard.columnSpacing columnSpacing
  let columnCapacity ← setting Item.uint64? standard.columnCapacity columnCapacity
  pure ⟨rowSpacing, columnSpacing, columnCapacity⟩

/-- The layout in a table. -/
def ofEntries? (entries : Entries) : Option Layout :=
  if entriesReadable entries then
    ofSettings? (entries.get? "row_spacing") (entries.get? "column_spacing")
      (entries.get? "column_capacity")
  else none

/-- The layout that an item describes: a table by its keys, an array by the order of its items, of
which those beyond the settings are not looked at. A date has no settings. -/
def ofItem? : Item → Option Layout
  | .inline entries => ofEntries? entries
  | .table _ entries => ofEntries? entries
  | .array items => ofSettings? items[0]? items[1]? items[2]?
  | .dateTime _ => some standard
  | _ => none

/-- The layout configured in a TOML text. -/
def ofToml? (source : String) : Option Layout :=
  match Toml.read? source with
  | none => none
  | some entries =>
    if entriesReadable (entries.filter fun entry => entry.1 != "layout") then
      match entries.get? "layout" with
      | none => some standard
      | some item => ofItem? item
    else none

/-- The layout configured in a TOML text, or the failure of a malformed one. -/
def configured (source : String) : Except Failure Layout :=
  match ofToml? source with
  | some layout => .ok layout
  | none => .error .malformedConfig

/-- The layout configured in a file. -/
def ofFile (files : FileSystem) (path : String) : Except Failure Layout :=
  match files.readText path with
  | .ok source => configured source
  | .error fault => .error (.io fault)

/-- Where a configuration is looked for when no path is given. -/
def searchPaths (home : String) : List String :=
  ["schemascope/config.toml", home ++ "/.config/schemascope/config.toml"]

/-- The layout of an explicit configuration file, of the first file found, or the standard one. -/
def load (files : FileSystem) (home : String) : Option String → Except Failure Layout
  | some path => if files.leads path then ofFile files path else .error (.missingConfig path)
  | none =>
    match (searchPaths home).find? files.leads with
    | some path => ofFile files path
    | none => .ok standard

end Layout

end SdlGraph
