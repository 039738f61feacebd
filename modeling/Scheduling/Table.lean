import Scheduling.Memory

/-!
# Tables

A `Table` holds one row per key, for keys `0, 1, …` in the order in which the rows were added. It is
seen through `get?`. The model of `KeyedVec`.

* `Table.get?_push`, `Table.get?_set`, `Table.get?_growTo`: what each operation does to the rows.
* `Table.read_eq_ok_iff`: reading a row answers exactly for the keys of the table.
-/

namespace Scheduling

/-- Rows for the keys `0, 1, …` (`KeyedVec`). -/
structure Table (α : Type) where
  items : Array α
  deriving DecidableEq, Repr

namespace Table

variable {α β : Type}

/-- The table without rows. -/
def empty : Table α := ⟨#[]⟩

instance : Inhabited (Table α) := ⟨empty⟩

/-- The rows in the order of their keys. -/
def ofList (rows : List α) : Table α := ⟨rows.toArray⟩

/-- The rows in the order of their keys. -/
def toList (t : Table α) : List α := t.items.toList

/-- The number of rows, which is the key of the next row (`len`). -/
def size (t : Table α) : Nat := t.items.size

/-- Adds a row for the key `t.size` (`push`). -/
def push (t : Table α) (row : α) : Table α := ⟨t.items.push row⟩

/-- The row of a key, if there is one. -/
def get? (t : Table α) (key : Nat) : Option α := t.items[key]?

/-- The row of a key; a key without a row is a fault (`get`). -/
def read (t : Table α) (key : Nat) : Except Fault α :=
  match t.get? key with
  | some row => .ok row
  | none => .error (.indexOutOfBounds t.size key)

/-- Replaces the row of a key; without effect if there is none. -/
def set (t : Table α) (key : Nat) (row : α) : Table α := ⟨t.items.setIfInBounds key row⟩

/-- Replaces the row of a key; a key without a row is a fault. -/
def write (t : Table α) (key : Nat) (row : α) : Except Fault (Table α) :=
  if key < t.size then .ok (t.set key row) else .error (.indexOutOfBounds t.size key)

/-- Adds copies of `row` until `key` has a row (`accomodate`). -/
def growTo (t : Table α) (key : Nat) (row : α) : Table α :=
  ⟨t.items ++ Array.replicate (key + 1 - t.size) row⟩

/-- Adds copies of `row`, of `bytes` bytes each, until `key` has a row, if memory can hold them. -/
def extendTo (t : Table α) (bytes key : Nat) (row : α) : Except Fault (Table α) := do
  if key < t.size then return t
  Memory.reserve (← Memory.addIndex key 1) bytes
  return t.growTo key row

/-- Changes every row. -/
def map (f : α → β) (t : Table α) : Table β := ⟨t.items.map f⟩

@[simp] theorem get?_empty (key : Nat) : (empty : Table α).get? key = none := by
  simp [empty, get?]

theorem get?_eq_none_iff {t : Table α} {key : Nat} : t.get? key = none ↔ t.size ≤ key := by
  simp [get?, size]

@[simp] theorem size_push (t : Table α) (row : α) : (t.push row).size = t.size + 1 := by
  simp [push, size]

theorem get?_push (t : Table α) (row : α) (key : Nat) :
    (t.push row).get? key = if key = t.size then some row else t.get? key := by
  simp only [push, get?, size, Array.getElem?_push]
  rfl

@[simp] theorem size_set (t : Table α) (key : Nat) (row : α) : (t.set key row).size = t.size := by
  simp [set, size]

theorem get?_set (t : Table α) (key : Nat) (row : α) (other : Nat) :
    (t.set key row).get? other =
      if key = other then if key < t.size then some row else none else t.get? other := by
  simp only [set, get?, size, Array.getElem?_setIfInBounds]
  rfl

theorem get?_growTo (t : Table α) (key : Nat) (row : α) (other : Nat) :
    (t.growTo key row).get? other =
      if other < t.size then t.get? other else if other ≤ key then some row else none := by
  simp only [growTo, get?, size, Array.getElem?_append, Array.getElem?_replicate]
  by_cases old : other < t.items.size
  · simp [old]
  · by_cases added : other ≤ key
    · simp [old, added, show other - t.items.size < key + 1 - t.items.size by omega]
    · simp [old, added, show ¬ other - t.items.size < key + 1 - t.items.size by omega]

theorem growTo_of_lt {t : Table α} {key : Nat} (row : α) (h : key < t.size) :
    t.growTo key row = t := by
  have none_missing : key + 1 - t.size = 0 := by omega
  simp [growTo, none_missing]

/-- Where it answers, growing within memory is growing. -/
theorem growTo_of_extendTo {t u : Table α} {bytes key : Nat} {row : α}
    (h : t.extendTo bytes key row = .ok u) : u = t.growTo key row := by
  simp only [extendTo, bind, Except.bind, pure, Except.pure] at h
  split at h
  · rename_i known
    cases h
    exact (growTo_of_lt row known).symm
  · repeat' split at h
    all_goals simp_all

theorem read_eq_ok_iff {t : Table α} {key : Nat} {row : α} :
    t.read key = .ok row ↔ t.get? key = some row := by
  unfold read; split <;> simp_all

end Table

end Scheduling
