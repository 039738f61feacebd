import Scheduling.Reversible.Cells

/-!
# Reversible sparse sets

A subset of `0, …, n - 1` from which elements are removed and to which they come back when the
search returns to an earlier checkpoint. The members are the first entries of `elements`; a removed
element is swapped behind them and their number, a reversible cell, goes down by one. The swaps are
never undone: putting the number back brings back exactly the elements removed since. The model of
`TrailedSparseSet`.
-/

namespace Scheduling

/-- A sparse set: its elements, members first, the position of each element among them, and the cell
that holds the number of members (`TrailedSparseSet`). -/
structure SparseSet where
  elements : Table Nat
  positions : Table Nat
  size : CellId
  deriving DecidableEq, Repr

namespace SparseSet

/-- The set of all numbers below `n`, with its size in the cell `size`. -/
def full (n : Nat) (size : CellId) : SparseSet :=
  ⟨.ofList (List.range n), .ofList (List.range n), size⟩

/-- A new set of all numbers below `n`, with a cell of its own, if memory can hold it (`new`). -/
def create (n : Nat) (cells : Cells) : Except Fault (SparseSet × Cells) := do
  Memory.reserve n 8
  return (.full n cells.next, cells.grow n)

/-- The number of members (`len`). -/
def length (s : SparseSet) (cells : Cells) : Except Fault Nat := do
  return (← cells.read s.size).toNat

/-- The element at a position (`get`). -/
def get (s : SparseSet) (position : Nat) : Except Fault Nat := s.elements.read position

/-- Whether the element is a member (`contains`). -/
def contains (s : SparseSet) (cells : Cells) (element : Nat) : Except Fault Bool := do
  match s.positions.get? element with
  | some position => return position < (← s.length cells)
  | none => return false

/-- The members in the order in which they are stored (`iter`). -/
def members (s : SparseSet) (cells : Cells) : Except Fault (List Nat) := do
  return s.elements.toList.take (← s.length cells)

/-- Exchanges the elements at two positions (`swap`). -/
def swap (s : SparseSet) (i j : Nat) : Except Fault SparseSet := do
  let a ← s.elements.read i
  let b ← s.elements.read j
  return { s with
    elements := (s.elements.set i b).set j a
    positions := (s.positions.set b i).set a j }

/-- Removes the member at a position (`remove_at`). The last member takes its place, so that
removals during a walk over the positions go from the last position to the first. -/
def removeAt (s : SparseSet) (position : Nat) (cells : Cells) :
    Except Fault (SparseSet × Cells) := do
  let size ← s.length cells
  if size ≤ position then throw .positionOutsideSet
  let s ← s.swap position (size - 1)
  let cells ← cells.assign s.size ((size - 1 : Nat) : Int)
  return (s, cells)

end SparseSet

end Scheduling
