import Scheduling.Cumulative.Checker
import Scheduling.Cumulative.Resource
import Scheduling.Disjunctive.Machine
import Scheduling.Disjunctive.Precedence
import Scheduling.Script
import Scheduling.Synchronisation

/-!
# The propagators of the library

One type for all of them, so that an engine can run them side by side.
-/

namespace Scheduling

/-- A propagator of any kind. -/
inductive Rule
  | synchronisation (p : Synchronisation)
  | precedence (p : Precedence)
  | machine (p : Machine)
  | resource (p : Resource)
  | checker (p : Checker)
  | script (p : Script)
  deriving DecidableEq, Repr

namespace Rule

/-- The name of the propagator. -/
def name : Rule → String
  | synchronisation p => Propagator.name p
  | precedence p => Propagator.name p
  | machine p => Propagator.name p
  | resource p => Propagator.name p
  | checker p => Propagator.name p
  | script p => Propagator.name p

/-- The priority of the propagator. -/
def priority : Rule → Priority
  | synchronisation p => Propagator.priority p
  | precedence p => Propagator.priority p
  | machine p => Propagator.priority p
  | resource p => Propagator.priority p
  | checker p => Propagator.priority p
  | script p => Propagator.priority p

/-- Runs a propagator of one kind as one of any kind. -/
def lift {P : Type} [Propagator P] (wrap : P → Rule) (context : Context) (p : P) :
    StateT Store (Except Fault) (Rule × Status) := do
  let (p, status) ← Propagator.run context p
  return (wrap p, status)

/-- One run of the propagator. -/
def run (context : Context) : Rule → StateT Store (Except Fault) (Rule × Status)
  | synchronisation p => lift synchronisation context p
  | precedence p => lift precedence context p
  | machine p => lift machine context p
  | resource p => lift resource context p
  | checker p => lift checker context p
  | script p => lift script context p

end Rule

instance : Propagator Rule where
  name := Rule.name
  priority := Rule.priority
  run := Rule.run

end Scheduling
