import Scheduling.Propagator

/-!
# Synchronised intervals

A target interval that has the presence of a source interval and starts where the source starts, or
where it ends. The model of `IntervalSynchronisationPropagator`.
-/

namespace Scheduling

/-- An end of an interval (`SynchronisedPoint`). -/
inductive Endpoint
  | start
  | stop
  deriving DecidableEq, Repr

namespace Endpoint

/-- The least time of the endpoint (`source_bounds`). -/
def least (e : Endpoint) (b : Bounds) : Int :=
  match e with
  | start => b.startMin
  | stop => b.endMin

/-- The greatest time of the endpoint (`source_bounds`). -/
def greatest (e : Endpoint) (b : Bounds) : Int :=
  match e with
  | start => b.startMax
  | stop => b.endMax

/-- The bound that is the least time of the endpoint. -/
def leastBound : Endpoint → Bound
  | start => .startMin
  | stop => .endMin

/-- The bound that is the greatest time of the endpoint. -/
def greatestBound : Endpoint → Bound
  | start => .startMax
  | stop => .endMax

end Endpoint

/-- The target has the presence of the source and starts at an endpoint of it
(`IntervalSynchronisationPropagator`). -/
structure Synchronisation where
  source : IntervalId
  target : IntervalId
  point : Endpoint
  deriving DecidableEq, Repr

namespace Synchronisation

/-- The name of the propagator. -/
def name : String := "IntervalSynchronisation"

/-- Gives one interval the presence of another, if that is known. -/
def copyPresence (fromInterval toInterval : IntervalId) : Propagation Unit := do
  let v ← Propagation.interval fromInterval
  match v.presence with
  | .present => Propagation.update toInterval .present
  | .absent => Propagation.update toInterval .absent
  | .optional => return

/-- Makes the presences agree (`synchronise_presence`). -/
def agree (s : Synchronisation) : Propagation Unit := do
  copyPresence s.source s.target
  copyPresence s.target s.source

/-- One run (`propagate`). The presences are compared again at the end, because an optional interval
may have become absent on the way. -/
def propagate (s : Synchronisation) (context : Context) : Propagation Unit := do
  s.agree
  let source ← Propagation.interval s.source
  if source.isAbsent then Propagation.setActive context false
  else do
    Propagation.tighten s.target .startMin (s.point.least source.toBounds)
    Propagation.tighten s.target .startMax (s.point.greatest source.toBounds)
    let target ← Propagation.interval s.target
    Propagation.tighten s.source s.point.leastBound target.startMin
    Propagation.tighten s.source s.point.greatestBound target.startMax
    s.agree

/-- Waits for any change of either interval (`create`). -/
def blueprint (s : Synchronisation) : Blueprint Synchronisation :=
  .plain [.interval s.source .anyInterval, .interval s.target .anyInterval] s

end Synchronisation

instance : Propagator Synchronisation where
  name _ := Synchronisation.name
  priority _ := .high
  run context s := do return (s, ← (s.propagate context).run)

end Scheduling
