/-!
# Byte ranges of a source text

A `Span` is a half-open range of byte offsets into the UTF-8 form of a text. Its end never lies
before its start. A `Located` value remembers the place it was read from; the kind of place is a
parameter, so the same data can carry byte ranges, token ranges or nothing at all.
-/

namespace SdlGraph

/-- Half-open range of byte offsets. -/
@[ext]
structure Span where
  /-- Offset of the first byte. -/
  start : Nat
  /-- Offset after the last byte. -/
  stop : Nat
  /-- A span never ends before it starts. -/
  start_le_stop : start ≤ stop
  deriving DecidableEq, Repr

namespace Span

/-- The span from `start` to `stop`; an end before the start is raised to the start. -/
def between (start stop : Nat) : Span := ⟨start, max start stop, Nat.le_max_left ..⟩

/-- The empty span at the beginning of a text. -/
def zero : Span := ⟨0, 0, Nat.le_refl 0⟩

/-- Number of bytes covered. -/
def length (span : Span) : Nat := span.stop - span.start

/-- Whether no byte is covered. -/
def isEmpty (span : Span) : Bool := span.start == span.stop

/-- The smallest span that covers both. -/
def union (left right : Span) : Span :=
  ⟨min left.start right.start, max left.stop right.stop,
    Nat.le_trans (Nat.min_le_left ..) (Nat.le_trans left.start_le_stop (Nat.le_max_left ..))⟩

theorem between_of_le {start stop : Nat} (h : start ≤ stop) :
    between start stop = ⟨start, stop, h⟩ := by
  simp [between, Nat.max_eq_right h]

end Span

/-- A value together with the place it was read from. -/
structure Located (place value : Type) where
  /-- The value itself. -/
  value : value
  /-- Where it was read. -/
  place : place
  deriving DecidableEq, Repr

namespace Located

/-- Change the places, keeping the value. -/
def mapPlace {σ τ α : Type} (f : σ → τ) (item : Located σ α) : Located τ α :=
  ⟨item.value, f item.place⟩

end Located

/-- Length in bytes of the UTF-8 form of a list of characters. -/
def utf8Length : List Char → Nat
  | [] => 0
  | c :: rest => c.utf8Size + utf8Length rest

theorem utf8Length_append (left right : List Char) :
    utf8Length (left ++ right) = utf8Length left + utf8Length right := by
  induction left with
  | nil => simp [utf8Length]
  | cons c rest ih => simp [utf8Length, ih, Nat.add_assoc]

end SdlGraph
