import Scheduling.Table
import Scheduling.Trail

/-!
# Reversible cells

Integers that propagators keep between their calls. Every write that changes a cell is recorded on a
trail, and returning to a checkpoint writes the overwritten values back. The model of
`TrailedValues`.

* `Cells.read_grow`, `Cells.read_assign`: what growing and assigning do to the value of each cell.
-/

namespace Scheduling

/-- The key of a reversible cell (`TrailedInteger`). -/
structure CellId where
  index : Nat
  deriving DecidableEq, Repr

/-- The value that a cell held before it was written (`OverwrittenValue`). -/
structure Overwritten where
  cell : CellId
  value : Int
  deriving DecidableEq, Repr

/-- The cells with the trail that undoes their changes (`TrailedValues`). -/
structure Cells where
  values : Table Int
  trail : Trail Overwritten
  deriving DecidableEq, Repr

namespace Cells

/-- No cells. -/
def empty : Cells := ⟨.empty, .empty⟩

/-- The key that the next cell gets. -/
def next (c : Cells) : CellId := ⟨c.values.size⟩

/-- Adds a cell; it stays when the search returns to an earlier checkpoint (`grow`). -/
def grow (c : Cells) (value : Int) : Cells := { c with values := c.values.push value }

/-- The value of a cell (`read`). -/
def read (c : Cells) (cell : CellId) : Except Fault Int := c.values.read cell.index

/-- Writes a cell (`assign`). Only a write that changes the value is recorded. -/
def assign (c : Cells) (cell : CellId) (value : Int) : Except Fault Cells := do
  let old ← c.read cell
  if old = value then return c
  return ⟨c.values.set cell.index value, c.trail.push ⟨cell, old⟩⟩

/-- Opens the next checkpoint (`new_checkpoint`). -/
def checkpoint (c : Cells) : Cells := { c with trail := c.trail.checkpoint }

/-- Writes an overwritten value back. -/
def restore (values : Table Int) (entry : Overwritten) : Table Int :=
  values.set entry.cell.index entry.value

/-- Returns to a checkpoint, undoing the writes made since, most recent first (`synchronise`). -/
def undoTo (c : Cells) (checkpoint : Nat) : Except Fault Cells := do
  let (popped, trail) ← c.trail.undoTo checkpoint
  return ⟨popped.foldl restore c.values, trail⟩

theorem read_eq_ok_iff {c : Cells} {cell : CellId} {value : Int} :
    c.read cell = .ok value ↔ c.values.get? cell.index = some value :=
  Table.read_eq_ok_iff

theorem read_grow (c : Cells) (value : Int) (cell : CellId) :
    (c.grow value).values.get? cell.index =
      if cell.index = c.values.size then some value else c.values.get? cell.index :=
  Table.get?_push ..

theorem read_assign {c d : Cells} {cell : CellId} {value : Int} (h : c.assign cell value = .ok d)
    (other : CellId) :
    d.values.get? other.index = if cell = other then some value else c.values.get? other.index := by
  obtain ⟨old, known⟩ : ∃ old, c.read cell = .ok old := by
    cases known : c.read cell with
    | ok old => exact ⟨old, rfl⟩
    | error cause => simp [assign, known, bind, Except.bind] at h
  have row := read_eq_ok_iff.1 known
  have inside : cell.index < c.values.size := by
    apply Nat.lt_of_not_le
    intro beyond
    simp [Table.get?_eq_none_iff.2 beyond] at row
  simp only [assign, known, bind, Except.bind] at h
  split at h
  · rename_i same
    cases h
    split
    · rename_i eq; rw [← eq, row, same]
    · rfl
  · cases h
    simp only [Table.get?_set, inside, if_true]
    cases cell; cases other; simp

end Cells

end Scheduling
