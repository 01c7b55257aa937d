import SdlGraph.Config.Toml.Scalar

/-!
# Tables of TOML

A table holds items by key, in written order. Keys with full stops and headers make the tables on
their way. A table can be opened by a header once, and only if it did not come about otherwise than
as part of a longer header; what was written as a value is closed. Numbers that cannot be read have
their place in a table, so whether an item can be read is asked separately.
-/

namespace SdlGraph.Toml

/-- How a table came about. -/
inductive Origin where
  /-- As part of a longer header. -/
  | implicit
  /-- By its own header. -/
  | header
  /-- By a key with full stops. -/
  | dotted
  deriving DecidableEq, Repr

/-- What a key can stand for. -/
inductive Item where
  /-- A string. -/
  | text (value : String)
  /-- An integer. -/
  | integer (value : Int)
  /-- A floating point number. -/
  | float (value : FloatingNumber)
  /-- A number that is too large to be held, or the outline of an integer that stands for none. -/
  | unreadable
  /-- A truth value. -/
  | boolean (value : Bool)
  /-- A date, a time or both, as written. -/
  | dateTime (written : String)
  /-- An array. -/
  | array (items : List Item)
  /-- A table written as a value. -/
  | inline (entries : List (String × Item))
  /-- A table that can still grow. -/
  | table (origin : Origin) (entries : List (String × Item))
  /-- The tables opened under one header for arrays, the last one first. -/
  | tables (newest : List (String × Item)) (older : List (List (String × Item)))
  deriving Repr

/-- The items of a table by key. -/
abbrev Entries := List (String × Item)

mutual

/-- Whether every number within an item can be read. -/
def Item.isReadable : Item → Bool
  | .unreadable => false
  | .array items => itemsReadable items
  | .inline entries => entriesReadable entries
  | .table _ entries => entriesReadable entries
  | .tables newest older => entriesReadable newest && tablesReadable older
  | .text _ => true
  | .integer _ => true
  | .float _ => true
  | .boolean _ => true
  | .dateTime _ => true

/-- Whether every number within the items of an array can be read. -/
def itemsReadable : List Item → Bool
  | [] => true
  | item :: rest => item.isReadable && itemsReadable rest

/-- Whether every number within the items of a table can be read. -/
def entriesReadable : List (String × Item) → Bool
  | [] => true
  | (_, item) :: rest => item.isReadable && entriesReadable rest

/-- Whether every number within the items of some tables can be read. -/
def tablesReadable : List (List (String × Item)) → Bool
  | [] => true
  | entries :: rest => entriesReadable entries && tablesReadable rest

end

namespace Entries

/-- The item of a key. -/
def get? (entries : Entries) (key : String) : Option Item :=
  (entries.find? (·.1 == key)).map (·.2)

/-- Put another item in the place of that of a key, or at the end. -/
def set (entries : Entries) (key : String) (item : Item) : Entries :=
  if (entries.get? key).isSome then
    entries.map fun entry => if entry.1 == key then (key, item) else entry
  else entries ++ [(key, item)]

/-- Give a value to a key that is not taken. The tables on the way are made if they are missing. One
that a header opened is closed, and one that came about as part of a longer header belongs to keys
with full stops from now on. Of the tables of an array the last one counts, but it takes no value
itself. -/
def assign (entries : Entries) (item : Item) : List String → Option Entries
  | [] => none
  | [key] => if (entries.get? key).isSome then none else some (entries.set key item)
  | key :: next :: path =>
    match entries.get? key with
    | none => (assign [] item (next :: path)).map fun inner =>
        entries.set key (.table .dotted inner)
    | some (.table .header _) => none
    | some (.table _ inner) => (assign inner item (next :: path)).map fun inner =>
        entries.set key (.table .dotted inner)
    | some (.tables newest older) =>
      if path.isEmpty then none
      else (assign newest item (next :: path)).map fun newest =>
        entries.set key (.tables newest older)
    | some _ => none

/-- Change the table at the end of a header. The tables on the way are made if they are missing; of
the tables of an array the last one counts. -/
def modifyAt (entries : Entries) (change : Entries → Option Entries) :
    List String → Option Entries
  | [] => change entries
  | key :: path =>
    match entries.get? key with
    | none => (modifyAt [] change path).map fun inner => entries.set key (.table .implicit inner)
    | some (.table origin inner) =>
      (modifyAt inner change path).map fun inner => entries.set key (.table origin inner)
    | some (.tables newest older) =>
      (modifyAt newest change path).map fun newest => entries.set key (.tables newest older)
    | some _ => none

/-- Open the table of a header whose last key is given. -/
def openTable (key : String) (entries : Entries) : Option Entries :=
  match entries.get? key with
  | none => some (entries.set key (.table .header []))
  | some (.table .implicit inner) => some (entries.set key (.table .header inner))
  | some _ => none

/-- Open one more table of an array of tables whose last key is given. -/
def openElement (key : String) (entries : Entries) : Option Entries :=
  match entries.get? key with
  | none => some (entries.set key (.tables [] []))
  | some (.tables newest older) => some (entries.set key (.tables [] (newest :: older)))
  | some _ => none

end Entries

end SdlGraph.Toml
