import Scheduling.Expression
import Scheduling.Propagator

/-!
# Scripted propagators

A scripted propagator performs given actions: on its first run those of the first list, and so on;
the last list serves all further runs. What it reads is noted at the end of each run, also of a run
that fails. The number of runs is not reversible.

A script is written with expressions. An action makes its variable when it is performed, so that an
expression that stands for no variable is a fault of the run that comes to it; what the script waits
for is made when the script is added.
-/

namespace Scheduling

/-- One action of a script. -/
inductive Action
  /-- Notes the bounds of a variable. -/
  | readBounds (v : Expression)
  /-- Notes what is known about a literal. -/
  | readLiteral (l : Literal)
  /-- Notes the domain of an interval. -/
  | readInterval (i : IntervalId)
  /-- Notes whether the propagator is active. -/
  | readActive
  /-- Switches the propagator on or off. -/
  | setActive (active : Bool)
  /-- Tightens one side of a variable. -/
  | setBound (v : Expression) (side : Side) (value : Int)
  /-- Gives a literal a truth value. -/
  | assign (l : Literal) (value : Bool)
  /-- Updates an interval. -/
  | update (i : IntervalId) (u : Update)
  /-- States a conflict. -/
  | fail
  deriving DecidableEq, Repr

/-- A scripted propagator. -/
structure Script where
  priority : Priority
  lists : List (List Action)
  /-- The number of runs so far. -/
  runs : Nat
  deriving DecidableEq, Repr

/-- Something that a script waits for. -/
inductive ScriptWatch
  | variable (v : Expression) (events : EventSet)
  | interval (i : IntervalId) (events : EventSet)
  deriving DecidableEq, Repr

/-- Makes the variable that the script waits for. -/
def ScriptWatch.build : ScriptWatch → Except Fault Watch
  | .variable v events => do return .variable (← v.build) events
  | .interval i events => return .interval i events

/-- The name of every scripted propagator. -/
def Script.name : String := "Probe"

/-- Makes the variable that an expression stands for. -/
def Propagation.make (e : Expression) : Propagation Variable := Propagation.inspect fun _ => e.build

/-- What an action reads, if it reads something. -/
def Action.perform (context : Context) : Action → Propagation (List Reading)
  | .readBounds e => do
    let v ← Propagation.make e
    return [.bounds (← Propagation.lower v) (← Propagation.upper v) (← Propagation.isFixed v)]
  | .readLiteral l => do
    return [.literal (← Propagation.isTrue l) (← Propagation.isFalse l)
      (← Propagation.isFixed (.literal l))]
  | .readInterval i => do return [.interval (← Propagation.interval i)]
  | .readActive => do return [.active (← Propagation.isActive context)]
  | .setActive active => do Propagation.setActive context active; return []
  | .setBound e side value => do
    Propagation.setBound (← Propagation.make e) side value
    return []
  | .assign l value => do Propagation.assign l value; return []
  | .update i u => do Propagation.update i u; return []
  | .fail => Propagation.conflict Script.name

namespace Script

/-- Performs actions in order until one fails: the readings up to there, and the outcome. -/
def perform (context : Context) : List Action → List Reading →
    StateT Store (Except Fault) (List Reading × Status)
  | [], readings => return (readings, .ok ())
  | action :: rest, readings => do
    match ← (action.perform context).run with
    | .ok more => perform context rest (readings ++ more)
    | .error cause => return (readings, .error cause)

/-- The actions of the next run. -/
def actions (s : Script) : List Action := (s.lists[s.runs]? <|> s.lists.getLast?).getD []

/-- One run. -/
def run (context : Context) (s : Script) : StateT Store (Except Fault) (Script × Status) := do
  let (readings, status) ← perform context s.actions []
  modify (·.note (.observed context.id readings))
  return ({ s with runs := s.runs + 1 }, status)

/-- A scripted propagator that has not been run. -/
def blueprint (priority : Priority) (watches : List ScriptWatch) (lists : List (List Action)) :
    Except Fault (Blueprint Script) := do
  return {
    watches := ← watches.mapM ScriptWatch.build
    cells := []
    build := fun _ _ => ⟨priority, lists, 0⟩
    notes := fun p => [.created p] }

end Script

instance : Propagator Script where
  name _ := Script.name
  priority := Script.priority
  run := Script.run

end Scheduling
