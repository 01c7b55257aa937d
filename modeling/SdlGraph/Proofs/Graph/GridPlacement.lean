import Mathlib.Algebra.Order.Ring.Int
import SdlGraph.Proofs.Graph.Depiction

/-!
# Where the nodes of a grid stand

A placement goes on step by step, and every step that would leave the range of 32-bit integers stops
at its end. Steps of one spacing all lead in the same direction, so a coordinate that has stopped
does not come back, and cutting off at each step is cutting off once: a node stands at the multiples
of the spacings for its column and its row, cut off to the range. A placement kept in machine words
takes the same steps, none of which fails before its counter is used up.
-/

namespace SdlGraph

theorem minCoordinate_le_clamp (n : Int) : minCoordinate ≤ clamp n := Int.le_max_left ..

theorem clamp_le_maxCoordinate (n : Int) : clamp n ≤ maxCoordinate :=
  Int.max_le.mpr ⟨by decide, Int.min_le_left ..⟩

/-- One step more, where the steps before were cut off already. -/
theorem clamp_clamp_mul_add (count : Nat) (spacing : Int) :
    clamp (clamp (count * spacing) + spacing) = clamp ((count + 1 : Nat) * spacing) := by
  have hmul : ((count + 1 : Nat) : Int) * spacing = count * spacing + spacing := by
    rw [Int.natCast_succ, Int.add_mul, Int.one_mul]
  -- The multiple and the step point in the same direction.
  have hsame : 0 ≤ spacing ∧ 0 ≤ count * spacing ∨ spacing ≤ 0 ∧ count * spacing ≤ 0 := by
    rcases Int.le_total 0 spacing with h | h
    · exact .inl ⟨h, Int.mul_nonneg (Int.natCast_nonneg count) h⟩
    · exact .inr ⟨h, Int.mul_nonpos_of_nonneg_of_nonpos (Int.natCast_nonneg count) h⟩
  rw [hmul]
  generalize (count : Int) * spacing = multiple at hsame
  unfold clamp minCoordinate maxCoordinate
  omega

namespace Layout

variable (layout : Layout)

theorem capacity_pos : 0 < layout.capacity := Nat.lt_of_lt_of_le Nat.one_pos (Nat.le_max_right ..)

/-- The number of the column of a node, counted up to the greatest coordinate. -/
def column (index : Nat) : Int := min ((index / layout.capacity : Nat) : Int) maxCoordinate

/-- The place of a node on the grid, cut off to the range of coordinates. -/
def place (index : Nat) : Position :=
  ⟨clamp (layout.column index * layout.columnSpacing.toInt),
    clamp ((index % layout.capacity : Nat) * layout.rowSpacing.toInt)⟩

/-- Neither the column of a node nor a coordinate is cut off: the node stands at the multiples of
the spacings for its column and its row. -/
def Unclamped (index : Nat) : Prop :=
  (Placer.start.after layout index).next =
    ⟨(index / layout.capacity : Nat) * layout.columnSpacing.toInt,
      (index % layout.capacity : Nat) * layout.rowSpacing.toInt⟩

/-- Behind the last row of a column, the next one begins. -/
theorem succ_of_dvd {index : Nat} (h : (index + 1) % layout.capacity = 0) :
    (index + 1) / layout.capacity = index / layout.capacity + 1 := by
  rw [Nat.succ_div, if_pos (Nat.dvd_of_mod_eq_zero h)]

/-- Behind any other row comes the next row of the same column. -/
theorem succ_of_not_dvd {index : Nat} (h : ¬(index + 1) % layout.capacity = 0) :
    (index + 1) / layout.capacity = index / layout.capacity ∧
      (index + 1) % layout.capacity = index % layout.capacity + 1 := by
  have hdiv : (index + 1) / layout.capacity = index / layout.capacity := by
    rw [Nat.succ_div, if_neg fun hdvd => h (Nat.mod_eq_zero_of_dvd hdvd), Nat.add_zero]
  refine ⟨hdiv, ?_⟩
  have hnext := Nat.div_add_mod (index + 1) layout.capacity
  have hthis := Nat.div_add_mod index layout.capacity
  rw [hdiv] at hnext
  omega

/-- A column counted up to the greatest coordinate. -/
theorem column_succ {index : Nat} (h : (index + 1) % layout.capacity = 0) :
    clamp (layout.column index + 1) = layout.column (index + 1) := by
  rw [column, column, layout.succ_of_dvd h]
  generalize index / layout.capacity = finished
  unfold clamp minCoordinate maxCoordinate
  omega

end Layout

namespace Placer

variable {layout : Layout}

/-- A placement under way after some nodes. -/
theorem after_start (layout : Layout) (count : Nat) :
    start.after layout count = ⟨count, layout.column count, layout.place count⟩ := by
  induction count with
  | zero => simp [after, start, Layout.column, Layout.place, clamp, minCoordinate, maxCoordinate]
  | succ count ih =>
    rw [after_succ, ih, advance]
    dsimp only
    split
    next hlast =>
      rw [layout.column_succ hlast, Layout.place, hlast]
      simp [clamp, minCoordinate, maxCoordinate]
    next hmore =>
      obtain ⟨hcolumn, hrow⟩ := layout.succ_of_not_dvd hmore
      have hsame : layout.column (count + 1) = layout.column count := by
        rw [Layout.column, Layout.column, hcolumn]
      simp only [Layout.place, hsame, hrow, clamp_clamp_mul_add]

end Placer

namespace Registers

theorem toInt_saturate (n : Int) : (saturate n).toInt = clamp n :=
  Int32.toInt_ofInt_of_le (minCoordinate_le_clamp n)
    (Int.lt_add_one_of_le (clamp_le_maxCoordinate n))

theorem toNat_capacity (layout : Layout) : (capacity layout).toNat = layout.capacity := by
  rw [capacity, Layout.capacity]
  split
  next hzero => rw [hzero]; rfl
  next hne =>
    have hpos : layout.columnCapacity.toNat ≠ 0 := fun h => hne (UInt64.toNat_inj.mp h)
    omega

/-- The counter goes up by one as long as there is a word for it. -/
theorem increment?_eq_some {count : UInt64} (h : count.toNat + 1 < UInt64.size) :
    ∃ next, increment? count = some next ∧ next.toNat = count.toNat + 1 := by
  refine ⟨count + 1, if_pos h, ?_⟩
  rw [UInt64.toNat_add]
  exact Nat.mod_eq_of_lt h

/-- The capacity of a column is never zero, so there is always a remainder. -/
theorem remainder?_capacity (layout : Layout) (count : UInt64) :
    ∃ row, remainder? count (capacity layout) = some row ∧
      row.toNat = count.toNat % layout.capacity := by
  have hne : capacity layout ≠ 0 := by
    intro hzero
    have hpos := layout.capacity_pos
    rw [← toNat_capacity, hzero] at hpos
    exact Nat.lt_irrefl 0 hpos
  exact ⟨count % capacity layout, if_neg hne, by rw [UInt64.toNat_mod, toNat_capacity]⟩

/-- As long as the counter is not used up, a step on the words succeeds, and the words behind it
stand for the placement that goes on. -/
theorem place?_eq_some (layout : Layout) {registers : Registers}
    (h : registers.placed.toNat + 1 < UInt64.size) :
    ∃ behind, registers.place? layout = some (registers.placer.next, behind) ∧
      behind.placer = registers.placer.advance layout := by
  obtain ⟨placed, hplaced, hcount⟩ := increment?_eq_some h
  obtain ⟨row, hrow, hremainder⟩ := remainder?_capacity layout placed
  have hzero : row = 0 ↔ (registers.placer.placed + 1) % layout.capacity = 0 := by
    rw [placer, ← hcount, ← hremainder, ← UInt64.toNat_inj]
    rfl
  refine ⟨_, by rw [place?, hplaced, Option.bind_eq_bind, Option.bind_some, hrow]; rfl, ?_⟩
  by_cases hlast : row = 0
  · rw [if_pos hlast, Placer.advance, if_pos (hzero.mp hlast)]
    simp only [placer, toInt_saturate, hcount, Int32.toInt_zero]
  · rw [if_neg hlast, Placer.advance, if_neg (mt hzero.mpr hlast)]
    simp only [placer, toInt_saturate, hcount]

/-- No step fails before the counter is used up, and the words stand for the placement under way. -/
theorem after?_eq_some (layout : Layout) {count : Nat} (h : count < UInt64.size) :
    ∃ registers, after? layout count = some registers ∧
      registers.placer = Placer.start.after layout count := by
  induction count with
  | zero => exact ⟨start, rfl, rfl⟩
  | succ count ih =>
    obtain ⟨registers, hafter, hplacer⟩ := ih (Nat.lt_of_succ_lt h)
    have hcount : registers.placed.toNat = count := by
      have hplaced : registers.placer.placed = count := by rw [hplacer, Placer.after_start]
      exact hplaced
    obtain ⟨behind, hplace, hbehind⟩ := place?_eq_some layout (hcount ▸ h)
    refine ⟨behind, by rw [after?, hafter, Option.bind_some, hplace]; rfl, ?_⟩
    rw [hbehind, hplacer, Placer.after_succ]

end Registers

namespace Layout

variable {layout : Layout}

/-- Different columns are told from each other by a spacing that is not zero, and rows as well. A
column with a single row needs no spacing for it. -/
theorem eq_of_unclamped {index other : Nat} (hindex : layout.Unclamped index)
    (hother : layout.Unclamped other) (hcolumn : layout.columnSpacing ≠ 0)
    (hrow : layout.rowSpacing ≠ 0 ∨ layout.capacity = 1)
    (hsame : (Placer.start.after layout index).next = (Placer.start.after layout other).next) :
    index = other := by
  have hne {spacing : Int32} (h : spacing ≠ 0) : spacing.toInt ≠ 0 :=
    fun hzero => h (Int32.toInt_inj.mp hzero)
  rw [hindex, hother, Position.mk.injEq] at hsame
  have hdiv : index / layout.capacity = other / layout.capacity :=
    Int.natCast_inj.mp (Int.eq_of_mul_eq_mul_right (hne hcolumn) hsame.1)
  have hmod : index % layout.capacity = other % layout.capacity := by
    rcases hrow with hrow | hone
    · exact Int.natCast_inj.mp (Int.eq_of_mul_eq_mul_right (hne hrow) hsame.2)
    · rw [hone, Nat.mod_one, Nat.mod_one]
  rw [← Nat.div_add_mod index layout.capacity, ← Nat.div_add_mod other layout.capacity, hdiv, hmod]

example : Layout.standard.Unclamped 8 := by
  unfold Unclamped
  decide

end Layout

end SdlGraph
