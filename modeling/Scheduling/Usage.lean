import Scheduling.Solver

/-!
# Usage functions

How the level of a resource evolves over time: pulses while an interval executes, steps at its start
or end, and sums and differences of these. A function is constrained through its activities
(`Usage.activities`): a step becomes an activity over an interval that starts at the step and lasts
to the horizon. The model of `CumulFunction`.

* `Usage.activities`: the activities whose level is the function, or its negation.
* `Usage.heightAt`: what the function adds at an endpoint of an interval because of that interval.
-/

namespace Scheduling

/-- A function of time (`CumulFunction`). -/
inductive Usage
  /-- Zero at all times. -/
  | flat
  /-- The height while the interval executes. -/
  | pulse (interval : IntervalId) (height : IntegerId)
  /-- The height from an endpoint of the source on; `dummy` starts there and lasts to the horizon.
  -/
  | step (source : IntervalId) (point : Endpoint) (dummy : IntervalId) (height : IntegerId)
  /-- The sum of two functions. -/
  | plus (left right : Usage)
  /-- The difference of two functions. -/
  | minus (left right : Usage)
  deriving DecidableEq, Repr

/-- A part of the height at an endpoint of an interval, which counts while the interval is present
(`PointHeight`). -/
structure HeightTerm where
  height : Variable
  interval : IntervalId
  deriving DecidableEq, Repr

namespace Usage

/-- The sum of functions (`sum`). -/
def sum (functions : List Usage) : Usage := functions.foldl plus flat

/-- The negation of a function (`neg`). -/
def negate (f : Usage) : Usage := minus flat f

/-- A height or its negation (`signed`). -/
def signed (height : IntegerId) (positive : Bool) : Variable :=
  .affine (.plain height) ⟨if positive then 1 else -1, 0⟩

/-- The activities whose level is the function, or its negation if not `positive` (`flatten`). -/
def activities : Usage → (positive : Bool) → List Activity
  | flat, _ => []
  | pulse interval height, positive => [⟨interval, signed height positive⟩]
  | step _ _ dummy height, positive => [⟨dummy, signed height positive⟩]
  | plus left right, positive => left.activities positive ++ right.activities positive
  | minus left right, positive => left.activities positive ++ right.activities (!positive)

/-- The function depends on the interval (`has_in_scope`). -/
def hasInScope (interval : IntervalId) : Usage → Bool
  | flat => false
  | pulse own _ => own == interval
  | step source _ _ _ => source == interval
  | plus left right | minus left right => left.hasInScope interval || right.hasInScope interval

/-- The terms of the height at an endpoint of an interval (`height_at`). A step at the end has not
happened at the start. -/
def terms (interval : IntervalId) (point : Endpoint) : Usage → (positive : Bool) → List HeightTerm
  | flat, _ => []
  | pulse own height, positive =>
    if own = interval then [⟨signed height positive, interval⟩] else []
  | step source happens _ height, positive =>
    if source = interval ∧ (happens = .start ∨ point = .stop) then
      [⟨signed height positive, interval⟩]
    else []
  | plus left right, positive =>
    left.terms interval point positive ++ right.terms interval point positive
  | minus left right, positive =>
    left.terms interval point positive ++ right.terms interval point (!positive)

/-- The height that the function reaches at an endpoint of an interval because of that interval
(`height_at_start` and `height_at_end`). -/
def heightAt (f : Usage) (interval : IntervalId) (point : Endpoint) :
    Except ArgumentError (List HeightTerm) :=
  if f.hasInScope interval then .ok (f.terms interval point true) else .error .intervalNotInScope

/-- A pulse whose height is a new variable (`pulse_with_bounds`). -/
def newPulse {P : Type} (interval : IntervalId) (heightMin heightMax : Int) : Session P Usage := do
  return pulse interval (← Session.newInteger heightMin heightMax)

/-- A step at an endpoint of an interval (`step`). -/
def newStep (source : IntervalId) (point : Endpoint) (height : IntegerId) : Posting Rule Usage := do
  return step source point (← Posting.newSynchronisedInterval source point) height

end Usage

namespace HeightTerm

/-- The range of a term: zero may be one of its values unless the interval is present. -/
def range (d : Domains) (t : HeightTerm) : Except Fault Load := do
  let lower ← t.height.lower d
  let upper ← t.height.upper d
  match (← d.interval t.interval).presence with
  | .present => return ⟨lower, upper⟩
  | .absent => return .zero
  | .optional => return ⟨min 0 lower, max 0 upper⟩

/-- The range of a sum of terms (`bounds`). -/
def bounds (d : Domains) (terms : List HeightTerm) : Except Fault Load :=
  terms.foldlM (fun total t => do total.plus (← t.range d)) .zero

end HeightTerm

end Scheduling
