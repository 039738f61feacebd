import Scheduling.Propagator

/-!
# The engine

The engine keeps the store, the propagators and the agenda. Propagation hands the pending events to
the propagators that wait for them and runs the waiting propagators, until nobody waits or one of
them fails. The model of `State`.

* `Engine.propagate`: the fixpoint loop. It is given more rounds than it can need, see
  `Engine.rounds`.
* `Engine.add`: adds a propagator and propagates. The propagator stays, also if it fails.
* `Engine.checkpoint`, `Engine.undoTo`: domains and reversible cells move together.
-/

namespace Scheduling

/-- The store with the propagators that work on it (`State`). -/
structure Engine (P : Type) where
  store : Store
  watches : WatchLists
  propagators : Table P
  /-- For every propagator, the cell that says whether it is active. -/
  activity : Table CellId
  agenda : Agenda

namespace Engine

variable {P : Type}

/-- No variables and no propagators. -/
def empty : Engine P := ⟨.empty, .empty, .empty, .empty, .empty⟩

instance : Inhabited (Engine P) := ⟨empty⟩

/-- The domains of the variables. -/
def domains (e : Engine P) : Domains := e.store.domains

/-- Replaces the domains. -/
def withDomains (e : Engine P) (domains : Domains) : Engine P :=
  { e with store := { e.store with domains } }

/-- Adds a message to the notes. -/
def say (e : Engine P) (m : Message) : Engine P := { e with store := e.store.say m }

/-- The notes so far, which are then forgotten. -/
def takeNotes (e : Engine P) : List Note × Engine P :=
  (e.store.notes, { e with store := { e.store with notes := [] } })

/-- Adds an integer variable. -/
def newInteger (e : Engine P) (domain : IntegerDomain) : IntegerId × Engine P :=
  (e.domains.nextInteger, e.withDomains (e.domains.addInteger domain))

/-- Adds an interval variable with consistent bounds. -/
def newInterval (e : Engine P) (bounds : Bounds) (presence : Presence) :
    Except Fault (IntervalId × Engine P) := do
  return (e.domains.nextInterval,
    e.withDomains (e.domains.addInterval (← Interval.ofBounds bounds presence)))

/-- Changes the domains, without propagating. If no value is left, they stay as they are. -/
def change (e : Engine P) (write : Domains → Except Fault (Option Domains)) :
    Except Fault (Status × Engine P) := do
  match ← write e.domains with
  | some domains => return (.ok (), e.withDomains domains)
  | none => return (.error .emptyDomain, e)

/-- What a propagator is told about itself. -/
def context (e : Engine P) (p : PropagatorId) : Except Fault Context := do
  return ⟨p, ← e.activity.read p.index⟩

/-- A propagator is active (`is_propagator_active`). -/
def isActive (e : Engine P) (p : PropagatorId) : Except Fault Bool := do
  return (← e.store.cells.read (← e.activity.read p.index)) != 0

/-- The current checkpoint (`get_checkpoint`). -/
def depth (e : Engine P) : Nat := e.domains.depth

/-- Opens the next checkpoint (`new_checkpoint`). -/
def checkpoint (e : Engine P) : Engine P := { e with store := e.store.checkpoint }

/-- Returns to a checkpoint (`synchronise`). No event is pending and nobody waits afterwards. -/
def undoTo (e : Engine P) (checkpoint : Nat) : Except Fault (Engine P) := do
  if e.depth ≤ checkpoint then throw .checkpointAhead
  return { e with store := ← e.store.undoTo checkpoint, agenda := e.agenda.clear }

/-- Forgets the pending events. -/
def dropEvents (e : Engine P) : Engine P := e.withDomains e.domains.dropEvents

/-- Nobody waits and no event is pending, as after a failure. -/
def abandon (e : Engine P) : Engine P := { e.dropEvents with agenda := e.agenda.clear }

variable [Propagator P]

/-- Puts a propagator on the agenda with its priority. -/
def schedule (e : Engine P) (p : PropagatorId) : Except Fault (Engine P) := do
  let propagator ← e.propagators.read p.index
  return { e with agenda := ← e.agenda.enqueue p (Propagator.priority propagator) }

/-- Hands the pending events to the propagators that wait for them (`enqueue_watchers`). -/
def notify (e : Engine P) : Except Fault (Engine P) := do
  let affected := e.domains.events.flatMap fun (v, event) => e.watches.affected event v
  affected.foldlM schedule e.dropEvents

/-- Runs a propagator once (`propagate_propagator`). -/
def call (e : Engine P) (p : PropagatorId) : Except Fault (Status × Engine P) := do
  let propagator ← e.propagators.read p.index
  let ((propagator, status), store) ← (Propagator.run (← e.context p) propagator).run e.store
  return (status, { e with store, propagators := e.propagators.set p.index propagator })

/-- Runs a propagator if it is active. A failure is noted, and ends all waiting. -/
def visit (e : Engine P) (p : PropagatorId) : Except Fault (Status × Engine P) := do
  if !(← e.isActive p) then return (.ok (), e)
  let (status, e) ← e.call p
  match status with
  | .ok () => return (.ok (), e)
  | .error cause =>
    let propagator ← e.propagators.read p.index
    return (.error cause, (e.say (.failed (Propagator.name propagator) p cause)).abandon)

/-- Runs waiting propagators for at most the given number of rounds. -/
def loop : Nat → Engine P → Except Fault (Status × Engine P)
  | 0, _ => .error .roundsExhausted
  | rounds + 1, e => do
    let e ← e.notify
    match e.agenda.pop with
    | (none, agenda) => return (.ok (), { e with agenda })
    | (some p, agenda) =>
      let (status, e) ← { e with agenda }.visit p
      match status with
      | .ok () => loop rounds e
      | .error cause => return (.error cause, e)

/-- An upper bound on the number of changes of domains: each moves a bound of 32 bits or decides the
presence of an interval. -/
def changes (e : Engine P) : Nat :=
  Width.w32.span * (2 * e.domains.integers.size + 7 * e.domains.intervals.size)

/-- After a change every propagator waits at most once until the next change. -/
def rounds (e : Engine P) : Nat := (e.changes + 1) * (e.propagators.size + 1)

/-- Runs propagators until nobody waits (`.ok`) or one of them fails (`propagate`). -/
def propagate (e : Engine P) : Except Fault (Status × Engine P) := e.loop e.rounds

/-- Adds a propagator without running it. -/
def install (e : Engine P) (b : Blueprint P) : Except Fault (PropagatorId × Engine P) := do
  let p : PropagatorId := ⟨e.propagators.size⟩
  let activity := e.store.cells.next
  let cells := e.store.cells.grow 1
  let propagator := b.build p cells.next
  let e := { e with
    store := { e.store with
      cells := b.cells.foldl Cells.grow cells
      notes := e.store.notes ++ b.notes p }
    watches := b.watches.foldl (·.register p ·) e.watches
    propagators := e.propagators.push propagator
    activity := e.activity.push activity }
  return (p, ← e.schedule p)

/-- Adds a propagator and propagates (`add_propagator`). -/
def add (e : Engine P) (b : Blueprint P) : Except Fault (PropagatorId × Status × Engine P) := do
  let (p, e) ← e.install b
  let (status, e) ← e.propagate
  return (p, status, e)

end Engine

end Scheduling
