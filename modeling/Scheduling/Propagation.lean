import Scheduling.Note
import Scheduling.Reversible.SparseSet
import Scheduling.Variable

/-!
# Propagation

What a propagator can do: read the domains, tighten them, read and write reversible cells, switch
itself off, and state a conflict. A step that empties a domain ends the propagation and leaves the
domains as they are. The model of `PropagationContext`.

* `Propagation`: computations on the store that may end with an inconsistency.
* `Propagation.exec`: what such a computation makes of a store. The lemmas `exec_bind`,
  `exec_inspect` and `exec_change` say what each step does.
-/

namespace Scheduling

/-- What propagators share: the domains, the reversible cells, and the notes, oldest first. -/
structure Store where
  domains : Domains
  cells : Cells
  notes : List Note
  deriving DecidableEq, Repr

namespace Store

/-- No variables and no cells. -/
def empty : Store := ⟨.empty, .empty, []⟩

/-- Adds a note. -/
def note (s : Store) (n : Note) : Store := { s with notes := s.notes ++ [n] }

/-- Adds a message to the notes. -/
def say (s : Store) (m : Message) : Store := s.note (.message m)

/-- Opens the next checkpoint. -/
def checkpoint (s : Store) : Store :=
  { s with domains := s.domains.checkpoint, cells := s.cells.checkpoint }

/-- Returns to a checkpoint. The notes stay. -/
def undoTo (s : Store) (checkpoint : Nat) : Except Fault Store := do
  return { s with
    domains := ← s.domains.undoTo checkpoint
    cells := ← s.cells.undoTo checkpoint }

end Store

/-- Computations on the store that may end with an inconsistency. The store keeps what was done
before the inconsistency arose. -/
abbrev Propagation := ExceptT Inconsistency (StateT Store (Except Fault))

/-- Who propagates: the key of the propagator and the cell that says whether it is active. -/
structure Context where
  id : PropagatorId
  activity : CellId
  deriving DecidableEq, Repr

namespace Propagation

/-- Reads something off the domains (`ReadDomains`). -/
def inspect {α : Type} (read : Domains → Except Fault α) : Propagation α := do
  read (← get).domains

/-- Changes the domains; if no value is left, they stay and the propagation fails. -/
def change (write : Domains → Except Fault (Option Domains)) : Propagation Unit := do
  match ← write (← get).domains with
  | some domains => modify fun s => { s with domains }
  | none => throw .emptyDomain

/-- The domain of an interval. -/
def interval (i : IntervalId) : Propagation Interval := inspect (·.interval i)

/-- The least value of a variable. -/
def lower (v : Variable) : Propagation Int := inspect v.lower

/-- The greatest value of a variable. -/
def upper (v : Variable) : Propagation Int := inspect v.upper

/-- Only one value of the variable is left. -/
def isFixed (v : Variable) : Propagation Bool := inspect v.isFixed

/-- The literal is certainly true. -/
def isTrue (l : Literal) : Propagation Bool := inspect l.isTrue

/-- The literal is certainly false. -/
def isFalse (l : Literal) : Propagation Bool := inspect l.isFalse

/-- Removes the values of a variable beyond `value` on one side (`set_lower_bound` and
`set_upper_bound`). -/
def setBound (v : Variable) (side : Side) (value : Int) : Propagation Unit :=
  change (v.setBound side value)

/-- Gives a literal a truth value (`assign_literal`). -/
def assign (l : Literal) (value : Bool) : Propagation Unit := change (l.assign value)

/-- Applies an update to an interval (`set_present` and `set_absent`). -/
def update (i : IntervalId) (u : Update) : Propagation Unit := change (·.update i u)

/-- Moves one bound of an interval to `value` (`set_start_min` and its siblings). -/
def tighten (i : IntervalId) (which : Bound) (value : Int) : Propagation Unit :=
  update i (.bound which value)

/-- The value of a reversible cell (`value`). -/
def readCell (cell : CellId) : Propagation Int := do (← get).cells.read cell

/-- Writes a reversible cell (`assign`). -/
def writeCell (cell : CellId) (value : Int) : Propagation Unit := do
  let cells ← (← get).cells.assign cell value
  modify fun s => { s with cells }

/-- Switches the propagator on or off, until the search returns to an earlier checkpoint
(`set_active`). -/
def setActive (context : Context) (active : Bool) : Propagation Unit :=
  writeCell context.activity (if active then 1 else 0)

/-- The propagator is switched on (`is_active`). -/
def isActive (context : Context) : Propagation Bool := do
  return (← readCell context.activity) != 0

/-- Adds a message to the notes. -/
def say (m : Message) : Propagation Unit := modify (·.say m)

/-- States a conflict in the name of a propagator. -/
def conflict {α : Type} (propagator : String) : Propagation α := throw (.conflict propagator)

/-- What a computation makes of a store: the outcome and the store it leaves. -/
def exec {α : Type} (x : Propagation α) (s : Store) :
    Except Fault (Except Inconsistency α × Store) :=
  x.run s

variable {α β : Type}

theorem exec_pure (a : α) (s : Store) : exec (pure a) s = .ok (.ok a, s) := rfl

theorem exec_throw (cause : Inconsistency) (s : Store) :
    exec (throw cause : Propagation α) s = .ok (.error cause, s) := rfl

theorem exec_get (s : Store) : exec get s = .ok (.ok s, s) := rfl

theorem exec_modify (f : Store → Store) (s : Store) : exec (modify f) s = .ok (.ok (), f s) := rfl

theorem exec_lift (x : Except Fault α) (s : Store) :
    exec (liftM x) s = x.map fun a => (.ok a, s) := by
  cases x <;> rfl

/-- The second step starts from the store that the first one leaves, unless that one fails. -/
theorem exec_bind (x : Propagation α) (f : α → Propagation β) (s : Store) :
    exec (x >>= f) s =
      match exec x s with
      | .ok (.ok a, s) => exec (f a) s
      | .ok (.error cause, s) => .ok (.error cause, s)
      | .error fault => .error fault := by
  show ExceptT.run (x >>= f) s = _
  simp only [exec, ExceptT.run_bind]
  show StateT.bind _ _ s = _
  unfold StateT.bind
  cases h : ExceptT.run x s with
  | error fault => rfl
  | ok result =>
    obtain ⟨outcome, s⟩ := result
    cases outcome <;> rfl

/-- Reading leaves the store as it is. -/
theorem exec_inspect (read : Domains → Except Fault α) (s : Store) :
    exec (inspect read) s = (read s.domains).map fun a => (.ok a, s) := by
  simp only [inspect, exec_bind, exec_get, exec_lift]

/-- A change either replaces the domains, or fails and leaves the store as it is. -/
theorem exec_change (write : Domains → Except Fault (Option Domains)) (s : Store) :
    exec (change write) s =
      (write s.domains).map fun
        | some domains => (.ok (), { s with domains })
        | none => (.error .emptyDomain, s) := by
  simp only [change, exec_bind, exec_get, exec_lift]
  cases write s.domains with
  | error fault => rfl
  | ok left => cases left <;> rfl

end Propagation

end Scheduling
