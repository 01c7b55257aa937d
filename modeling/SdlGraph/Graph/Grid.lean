/-!
# Placement on a grid

Nodes are placed column by column. Each stands one row below the one before it until the column
holds as many as its capacity; the next one stands at the top of the next column. Coordinates are
32-bit integers, and a step that would leave their range stops at its end. A `Placer` counts in
numbers without a bound; `Registers` takes the same steps in machine words, and says which of them
could fail.
-/

namespace SdlGraph

/-- The least 32-bit integer. -/
def minCoordinate : Int := -2147483648

/-- The greatest 32-bit integer. -/
def maxCoordinate : Int := 2147483647

/-- The 32-bit integer closest to a number. -/
def clamp (n : Int) : Int := max minCoordinate (min maxCoordinate n)

/-- The spacing of the grid and the capacity of its columns. -/
structure Layout where
  /-- Distance between the rows of a column. -/
  rowSpacing : Int32
  /-- Distance between columns. -/
  columnSpacing : Int32
  /-- Number of nodes in a column; zero counts as one. -/
  columnCapacity : UInt64
  deriving DecidableEq, Repr

namespace Layout

/-- The layout used when none is configured. -/
def standard : Layout := ⟨150, 300, 5⟩

/-- Number of nodes in a column, at least one. -/
def capacity (layout : Layout) : Nat := max layout.columnCapacity.toNat 1

end Layout

/-- Coordinates of the top left corner of a node. -/
structure Position where
  /-- The horizontal coordinate. -/
  x : Int
  /-- The vertical coordinate. -/
  y : Int
  deriving DecidableEq, Repr

/-- A placement under way: where the next node goes. -/
structure Placer where
  /-- Number of nodes placed. -/
  placed : Nat
  /-- Number of the column, counted up to the greatest coordinate. -/
  column : Int
  /-- The position of the next node. -/
  next : Position
  deriving DecidableEq, Repr

namespace Placer

/-- The beginning of a placement. -/
def start : Placer := ⟨0, 0, ⟨0, 0⟩⟩

/-- Go on after placing a node. -/
def advance (layout : Layout) (placer : Placer) : Placer :=
  if (placer.placed + 1) % layout.capacity = 0 then
    let column := clamp (placer.column + 1)
    ⟨placer.placed + 1, column, ⟨clamp (column * layout.columnSpacing.toInt), 0⟩⟩
  else
    ⟨placer.placed + 1, placer.column,
      ⟨placer.next.x, clamp (placer.next.y + layout.rowSpacing.toInt)⟩⟩

/-- The positions of a number of nodes, in the order in which they are placed. -/
def positions (layout : Layout) (placer : Placer) : Nat → List Position
  | 0 => []
  | count + 1 => placer.next :: positions layout (placer.advance layout) count

/-- The placement after a number of nodes. -/
def after (layout : Layout) (placer : Placer) : Nat → Placer
  | 0 => placer
  | count + 1 => after layout (placer.advance layout) count

/-- Placing one node more is placing the others first. -/
theorem after_succ {layout : Layout} (placer : Placer) (count : Nat) :
    placer.after layout (count + 1) = (placer.after layout count).advance layout := by
  induction count generalizing placer with
  | zero => rfl
  | succ count ih => exact ih (placer.advance layout)

end Placer

/-- A placement under way as it is kept in machine words. -/
structure Registers where
  /-- Number of nodes placed. -/
  placed : UInt64
  /-- Number of the column. -/
  column : Int32
  /-- The horizontal coordinate of the next node. -/
  x : Int32
  /-- The vertical coordinate of the next node. -/
  y : Int32
  deriving DecidableEq, Repr

namespace Registers

/-- The beginning of a placement. -/
def start : Registers := ⟨0, 0, 0, 0⟩

/-- What the words stand for. -/
def placer (registers : Registers) : Placer :=
  ⟨registers.placed.toNat, registers.column.toInt, ⟨registers.x.toInt, registers.y.toInt⟩⟩

/-- The word closest to a number. -/
def saturate (n : Int) : Int32 := Int32.ofInt (clamp n)

/-- The next number, unless there is no word for it. -/
def increment? (count : UInt64) : Option UInt64 :=
  if count.toNat + 1 < UInt64.size then some (count + 1) else none

/-- The remainder of a division, unless it is by zero. -/
def remainder? (count divisor : UInt64) : Option UInt64 :=
  if divisor = 0 then none else some (count % divisor)

/-- The capacity of a column, at least one. -/
def capacity (layout : Layout) : UInt64 :=
  if layout.columnCapacity = 0 then 1 else layout.columnCapacity

/-- Place a node and go on, unless a step on the words fails. -/
def place? (layout : Layout) (registers : Registers) : Option (Position × Registers) := do
  let placed ← increment? registers.placed
  let y := saturate (registers.y.toInt + layout.rowSpacing.toInt)
  let row ← remainder? placed (capacity layout)
  let behind : Registers :=
    if row = 0 then
      let column := saturate (registers.column.toInt + 1)
      ⟨placed, column, saturate (column.toInt * layout.columnSpacing.toInt), 0⟩
    else ⟨placed, registers.column, registers.x, y⟩
  pure (⟨registers.x.toInt, registers.y.toInt⟩, behind)

/-- The words after placing a number of nodes, unless a step fails. -/
def after? (layout : Layout) : Nat → Option Registers
  | 0 => some start
  | count + 1 => (after? layout count).bind fun registers =>
    (registers.place? layout).map fun placed => placed.2

end Registers

end SdlGraph
