import Scheduling.Engine
import Scheduling.Rule

/-!
# The solver

Variables, decisions and checkpoints on top of an engine. Every decision is propagated. A failure
before the first checkpoint makes the solver infeasible for good. The model of `Solver`.

* `Session`: operations on a solver.
* `Posting`: operations that add propagators, and may be refused.
-/

namespace Scheduling

/-- An engine that knows whether its problem was found to have no solution (`Solver`). -/
structure Solver (P : Type) where
  engine : Engine P
  isInfeasible : Bool

/-- A mistake in the arguments of a constraint (`ArgumentError`). -/
inductive ArgumentError
  | invalidCapacity (minimum maximum : Int)
  | negativeCapacity (maximum : Int)
  | emptyWindow (start stop : Int)
  | intervalNotInScope
  deriving DecidableEq, Repr

/-- The text of a mistake in the arguments. -/
def ArgumentError.message : ArgumentError → String
  | invalidCapacity minimum maximum =>
    s!"the minimum capacity {minimum} exceeds the maximum capacity {maximum}"
  | negativeCapacity maximum => s!"the maximum capacity {maximum} is negative"
  | emptyWindow start stop => s!"the window [{start}, {stop}) is empty"
  | intervalNotInScope => "the interval is not part of the scope of the cumulative function"

/-- Why a constraint was not posted (`ConstraintOperationError`). -/
inductive PostError
  /-- The solver was infeasible before. -/
  | infeasibleState
  /-- The first propagation failed. -/
  | infeasiblePropagator
  /-- The arguments make no sense. -/
  | invalidArgument (cause : ArgumentError)
  deriving DecidableEq, Repr

/-- The text of a refusal. -/
def PostError.message : PostError → String
  | infeasibleState =>
    "Adding the propagator failed because the solver is in an infeasible state"
  | infeasiblePropagator => "Adding the propagator led to a root-level conflict"
  | invalidArgument cause => "The constraint could not be built: " ++ cause.message

/-- Operations on a solver. -/
abbrev Session (P : Type) := StateT (Solver P) (Except Fault)

/-- Operations on a solver that may be refused. The solver keeps what was done before. -/
abbrev Posting (P : Type) := ExceptT PostError (Session P)

namespace Solver

variable {P : Type}

/-- No variables and no propagators. -/
def empty : Solver P := ⟨.empty, false⟩

instance : Inhabited (Solver P) := ⟨empty⟩

/-- The domains of the variables. -/
def domains (s : Solver P) : Domains := s.engine.domains

/-- Replaces the engine. -/
def withEngine (s : Solver P) (engine : Engine P) : Solver P := { s with engine }

/-- A failure before the first checkpoint concerns the problem as a whole
(`mark_infeasible_at_root`). -/
def markInfeasible (s : Solver P) : Solver P :=
  if s.engine.depth = 0 then ⟨s.engine.say .infeasible, true⟩ else s

end Solver

namespace Session

variable {P : Type}

/-- Works on the engine. -/
def onEngine {α : Type} (f : Engine P → Except Fault (α × Engine P)) : Session P α := do
  let s ← get
  let (a, engine) ← f s.engine
  set (s.withEngine engine)
  return a

/-- Reads something off the domains. -/
def inspect {α : Type} (read : Domains → Except Fault α) : Session P α := do
  read (← get).domains

/-- Adds a message to the notes. -/
def say (m : Message) : Session P Unit := modify fun s => s.withEngine (s.engine.say m)

/-- The notes so far, which are then forgotten. -/
def takeNotes : Session P (List Note) := onEngine fun e => return e.takeNotes

/-- An integer variable with the values from `lower` to `upper` (`new_bounded_integer`). -/
def newInteger (lower upper : Int) : Session P IntegerId := do
  if upper < lower then throw (.emptyIntegerDomain lower upper)
  onEngine fun e => return e.newInteger ⟨lower, upper⟩

/-- A literal over a new domain (`new_literal`). -/
def newLiteral : Session P Literal := do
  return ⟨← onEngine fun e => return e.newInteger ⟨0, 1⟩, true⟩

/-- The nearest time within the horizon (`clip`). -/
def clip (time : Int) : Int := max (-horizon) (min time horizon)

/-- The bounds of an interval with given ranges of its start and its length, clipped to the horizon.
-/
def clippedBounds (startMin startMax lengthMin lengthMax : Int) : Bounds :=
  let shortest := min lengthMin (2 * horizon)
  let longest := min lengthMax (2 * horizon)
  { startMin := clip startMin
    startMax := clip startMax
    endMin := clip (clip startMin + shortest)
    endMax := clip (clip startMax + longest)
    lengthMin := shortest
    lengthMax := longest }

/-- An interval variable with given ranges of its start and its length (`new_interval`). -/
def newInterval (startMin startMax lengthMin lengthMax : Int) (isOptional : Bool) :
    Session P IntervalId := do
  if startMax < startMin || lengthMin < 0 || lengthMax < lengthMin then
    throw (.emptyIntervalDomain startMin startMax lengthMin lengthMax)
  onEngine (·.newInterval (clippedBounds startMin startMax lengthMin lengthMax)
    (if isOptional then .optional else .present))

/-- A present interval with a known start and length (`new_fixed_interval`). -/
def newFixedInterval (start length : Int) : Session P IntervalId :=
  newInterval start start length length false

/-- Opens the next checkpoint (`new_checkpoint`). -/
def checkpoint : Session P Unit := modify fun s => s.withEngine s.engine.checkpoint

/-- Returns to a checkpoint (`synchronise`). -/
def undoTo (checkpoint : Nat) : Session P Unit :=
  onEngine fun e => return ((), ← e.undoTo checkpoint)

variable [Propagator P]

/-- Runs propagators until nothing changes (`propagate`). -/
def propagate : Session P Status := do
  if (← get).isInfeasible then return .error .emptyDomain
  let status ← onEngine Engine.propagate
  if status matches .error _ then modify Solver.markInfeasible
  return status

/-- A decision: changes the domains and propagates (`decide`). -/
def impose (write : Domains → Except Fault (Option Domains)) : Session P Status := do
  if (← get).isInfeasible then return .error .emptyDomain
  let status ← match ← onEngine (·.change write) with
    | .ok () => onEngine Engine.propagate
    | .error cause => pure (.error cause)
  if status matches .error _ then
    modify fun s => (s.withEngine s.engine.dropEvents).markInfeasible
  return status

/-- Removes the values of a variable beyond `value` on one side (`set_lower_bound` and
`set_upper_bound`). -/
def setBound (v : Variable) (side : Side) (value : Int) : Session P Status :=
  impose (v.setBound side value)

/-- Gives a literal a truth value (`set_literal`). -/
def assign (l : Literal) (value : Bool) : Session P Status := impose (l.assign value)

/-- Updates an interval (`update_interval`). -/
def update (i : IntervalId) (u : Update) : Session P Status := impose (·.update i u)

end Session

namespace Posting

/-- Refuses to post. -/
def refuse {P α : Type} (cause : ArgumentError) : Posting P α := throw (.invalidArgument cause)

/-- Adds a propagator and propagates (`add_propagator`). -/
def add {P : Type} [Propagator P] (b : Blueprint P) : Posting P PropagatorId := do
  if (← get).isInfeasible then throw .infeasibleState
  let (p, status) ← (Session.onEngine fun e => do
    let (p, status, e) ← e.add b
    return ((p, status), e) : Session P (PropagatorId × Status))
  match status with
  | .ok () => return p
  | .error _ => do
    modify Solver.markInfeasible
    throw .infeasiblePropagator

/-- Adds a propagator that is made only after the solver is known to be feasible. -/
def addMade {P : Type} [Propagator P] (make : Except Fault (Blueprint P)) :
    Posting P PropagatorId := do
  if (← get).isInfeasible then throw .infeasibleState
  add (← (liftM make : Session P (Blueprint P)))

/-- An interval that has the presence of a source and starts at an endpoint of it
(`new_synchronised_interval`). Its end lies at the horizon. It stays if the synchronisation
fails. -/
def newSynchronisedInterval (source : IntervalId) (point : Endpoint) : Posting Rule IntervalId := do
  let v ← (Session.inspect (·.interval source) : Session Rule Interval)
  let bounds : Bounds := ⟨-horizon, horizon, horizon, horizon, 0, 2 * horizon⟩
  let target ← (Session.onEngine (·.newInterval bounds v.presence) : Session Rule IntervalId)
  let synchronisation : Synchronisation := ⟨source, target, point⟩
  let _ ← add (synchronisation.blueprint.map Rule.synchronisation)
  return target

end Posting

end Scheduling
