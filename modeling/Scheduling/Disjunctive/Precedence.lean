import Scheduling.Propagator

/-!
# Precedences

Two intervals that may not overlap, with a literal that says which of them comes first. A precedence
binds only while both intervals are present: an optional interval is limited by the other one, but
does not limit it. The model of `NoOverlapBinaryPropagator`.
-/

namespace Scheduling

/-- Either `first` ends before `second` starts and the literal is true, or the other way round and
it is false (`NoOverlapBinaryPropagator`). -/
structure Precedence where
  first : IntervalId
  second : IntervalId
  before : Literal
  deriving DecidableEq, Repr

namespace Precedence

/-- The name of the propagator. -/
def name : String := "NoOverlapBinary"

/-- Two present intervals of which one cannot come first decide the literal. -/
def decideOrder (p : Precedence) : Propagation Unit := do
  let a ← Propagation.interval p.first
  let b ← Propagation.interval p.second
  if a.isPresent && b.isPresent then
    if a.endMin > b.startMax then Propagation.assign p.before false
    else if b.endMin > a.startMax then Propagation.assign p.before true

/-- Makes an interval end before another one starts (`enforce_precedence`). -/
def enforce (earlier later : IntervalId) : Propagation Unit := do
  let a ← Propagation.interval earlier
  if a.isPresent then Propagation.tighten later .startMin a.endMin
  let b ← Propagation.interval later
  if b.isPresent then Propagation.tighten earlier .endMax b.startMax

/-- Enforces the order that the literal states. -/
def enforceOrder (p : Precedence) : Propagation Unit := do
  if ← Propagation.isTrue p.before then enforce p.first p.second
  else if ← Propagation.isFalse p.before then enforce p.second p.first

/-- Nothing is left to do once both intervals and the literal are known. -/
def retire (p : Precedence) (context : Context) : Propagation Unit := do
  if (← Propagation.interval p.first).isFixed then
    if (← Propagation.interval p.second).isFixed then
      if ← Propagation.isFixed (.literal p.before) then
        Propagation.setActive context false

/-- One of the intervals does not take place. The second one is not looked at if the first one is
absent. -/
def isVoid (p : Precedence) : Propagation Bool := do
  if (← Propagation.interval p.first).isAbsent then return true
  return (← Propagation.interval p.second).isAbsent

/-- One run (`propagate`). -/
def propagate (p : Precedence) (context : Context) : Propagation Unit := do
  if ← p.isVoid then Propagation.setActive context false
  else do
    p.decideOrder
    p.enforceOrder
    p.retire context

/-- Waits for any change of either interval, and for the literal (`create`). -/
def blueprint (p : Precedence) : Blueprint Precedence :=
  .plain [.interval p.first .anyInterval, .interval p.second .anyInterval,
    .variable (.literal p.before) .assign] p

end Precedence

instance : Propagator Precedence where
  name _ := Precedence.name
  priority _ := .high
  run context p := do return (p, ← (p.propagate context).run)

end Scheduling
