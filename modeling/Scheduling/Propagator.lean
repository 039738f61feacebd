import Scheduling.Agenda
import Scheduling.Propagation

/-!
# Propagators

A propagator has a name, a priority and data of its own, which a run may change. It is added to an
engine by a `Blueprint`: what it waits for, which reversible cells it needs, and how it is built
from them.
-/

namespace Scheduling

/-- What the engine has to know about a propagator (`Propagator`). -/
class Propagator (P : Type) where
  /-- The name that conflicts and messages give. -/
  name : P → String
  /-- How urgent a run is. -/
  priority : P → Priority
  /-- One run: the propagator with its data as the run leaves them, and the outcome. -/
  run : Context → P → StateT Store (Except Fault) (P × Status)

/-- Something to wait for: events of a variable or of an interval. -/
inductive Watch
  | variable (v : Variable) (events : EventSet)
  | interval (i : IntervalId) (events : EventSet)
  deriving DecidableEq, Repr

/-- Registers one watch of a propagator (`register` and `register_interval`). -/
def WatchLists.register (w : WatchLists) (p : PropagatorId) : Watch → WatchLists
  | .variable v events => w.subscribe p (.integer v.base) (v.watch events)
  | .interval i events => w.subscribe p (.interval i) events

/-- How a propagator is added: what it waits for, the first values of its reversible cells, the
propagator itself, given its key and the key of the first of these cells, and what is noted when it
is created (`PropagatorConstructor`). -/
structure Blueprint (P : Type) where
  watches : List Watch
  cells : List Int
  build : PropagatorId → CellId → P
  notes : PropagatorId → List Note

namespace Blueprint

/-- A propagator without reversible cells. -/
def plain {P : Type} (watches : List Watch) (p : P) : Blueprint P :=
  ⟨watches, [], fun _ _ => p, fun _ => []⟩

/-- The same propagator as part of a larger family. -/
def map {P Q : Type} (f : P → Q) (b : Blueprint P) : Blueprint Q :=
  ⟨b.watches, b.cells, fun id cell => f (b.build id cell), b.notes⟩

end Blueprint

end Scheduling
