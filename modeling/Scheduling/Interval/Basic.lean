import Scheduling.Interval.Bounds

/-!
# Interval variables

An interval is present, absent or optional, and has bounds. An update that leaves an optional
interval without a placement makes it absent with its bounds as they were; for a present interval it
is an inconsistency. Bound updates of an absent interval have no effect. The model of
`IntervalDomain`.

* `Interval.update?`: the domain after an update, if one is left.
* `Interval.Admits`: the values of an interval, either absence or a placement.
* `Interval.update?_present`, `Interval.update?_absent`, `Interval.update?_of_isAbsent`,
  `Interval.update?_bound`: the cases of an update.
-/

namespace Scheduling

/-- Whether an interval takes place (`Presence`). -/
inductive Presence
  | present
  | absent
  | optional
  deriving DecidableEq, Repr

/-- The domain of an interval variable (`IntervalDomain`). -/
structure Interval extends Bounds where
  presence : Presence
  deriving DecidableEq, Repr

/-- A change to the domain of an interval variable (`IntervalUpdate`). -/
inductive Update
  /-- One bound is moved to the given value. -/
  | bound (which : Bound) (value : Int)
  /-- The interval takes place. -/
  | present
  /-- The interval does not take place. -/
  | absent
  deriving DecidableEq, Repr

/-- A value of an interval variable. -/
inductive IntervalValue
  | absent
  | placed (start length : Int)
  deriving DecidableEq, Repr

namespace Interval

/-- The interval is present. -/
def isPresent (v : Interval) : Bool := v.presence == .present

/-- The interval is absent. -/
def isAbsent (v : Interval) : Bool := v.presence == .absent

/-- It is open whether the interval is present. -/
def isOptional (v : Interval) : Bool := v.presence == .optional

/-- The interval is absent, or its start and end are known (`is_fixed`). -/
def isFixed (v : Interval) : Bool := v.isAbsent || v.toBounds.isFixed

/-- The values within the domain. -/
def Admits (v : Interval) : IntervalValue → Prop
  | .absent => v.presence ≠ .present
  | .placed start length => v.presence ≠ .absent ∧ v.toBounds.Admits start length

/-- The domain after an update; `none` if no value is left (`update_interval`). -/
def update? (v : Interval) (u : Update) : Option Interval :=
  match v.presence, u with
  | .absent, .present => none
  | .absent, _ => some v
  | .present, .absent => none
  | _, .absent => some { v with presence := .absent }
  | _, .present => some { v with presence := .present }
  | presence, .bound which value =>
    match (v.toBounds.tighten which value).propagate with
    | (true, bounds) => some { v with toBounds := bounds }
    | (false, _) => if presence = .optional then some { v with presence := .absent } else none

theorem update?_present (v : Interval) : v.update? .present =
    if v.isAbsent then none else some { v with presence := .present } := by
  obtain ⟨b, presence⟩ := v
  cases presence <;> rfl

theorem update?_absent (v : Interval) : v.update? .absent =
    if v.isPresent then none else some { v with presence := .absent } := by
  obtain ⟨b, presence⟩ := v
  cases presence <;> rfl

/-- An absent interval refuses nothing but to be present. -/
theorem update?_of_isAbsent {v : Interval} (absent : v.isAbsent = true) {u : Update}
    (u_ne : u ≠ .present) : v.update? u = some v := by
  obtain ⟨b, presence⟩ := v
  cases presence with
  | absent =>
    cases u with
    | present => exact absurd rfl u_ne
    | absent | bound => rfl
  | present | optional => cases absent

/-- A bound is moved with those that follow from it; where this leaves no placement, the interval
cannot be present. -/
theorem update?_bound {v : Interval} {which : Bound} {value : Int} {consistent : Bool} {c : Bounds}
    (there : v.isAbsent = false)
    (found : (v.toBounds.tighten which value).propagate = (consistent, c)) :
    v.update? (.bound which value) =
      if consistent then some { v with toBounds := c }
      else if v.isPresent then none else some { v with presence := .absent } := by
  obtain ⟨b, presence⟩ := v
  cases presence with
  | absent => cases there
  | present | optional =>
    unfold update?
    simp only [found]
    cases consistent <;> rfl

/-- A new domain with consistent bounds; bounds without a placement are a fault
(`grow_interval`). -/
def ofBounds (bounds : Bounds) (presence : Presence) : Except Fault Interval :=
  match bounds.propagate with
  | (true, bounds) => .ok { toBounds := bounds, presence }
  | (false, _) => .error .unsupportedInterval

end Interval

end Scheduling
