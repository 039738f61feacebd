import Scheduling.Event
import Scheduling.Table
import Scheduling.Trail

/-!
# Domains

The domains of all variables, the trail that undoes their changes, and the events that no propagator
has been told about yet. A domain only shrinks, until the search returns to an earlier checkpoint.
The model of `Assignments`.

* `IntegerDomain.update?` and `Interval.update?`: the domain after a change, if a value is left.
* `IntegerDomain.admits_of_update?`, `IntegerDomain.update?_eq_none_iff`: a change keeps exactly the
  values that it should, and fails only if there is none.
* `Domains.commit`: every change of a domain is recorded together with its events.
-/

namespace Scheduling

/-- The two ends of a range. -/
inductive Side
  | lower
  | upper
  deriving DecidableEq, Repr

/-- The other end. -/
def Side.opposite : Side → Side
  | lower => upper
  | upper => lower

/-- The value is not beyond the bound on the given side. -/
def Side.Keeps (side : Side) (bound value : Int) : Prop :=
  match side with
  | lower => bound ≤ value
  | upper => value ≤ bound

/-- The values from `lower` to `upper` (`IntegerDomain`). -/
structure IntegerDomain where
  lower : Int
  upper : Int
  deriving DecidableEq, Repr

namespace IntegerDomain

/-- The values of the domain. -/
def Admits (d : IntegerDomain) (value : Int) : Prop := d.lower ≤ value ∧ value ≤ d.upper

/-- One end of the domain. -/
def bound (d : IntegerDomain) : Side → Int
  | .lower => d.lower
  | .upper => d.upper

/-- The domain without the values beyond `value` on one side; `none` if no value is left. -/
def update? (d : IntegerDomain) (side : Side) (value : Int) : Option IntegerDomain :=
  match side with
  | .lower =>
    if value ≤ d.lower then some d
    else if value ≤ d.upper then some { d with lower := value } else none
  | .upper =>
    if d.upper ≤ value then some d
    else if d.lower ≤ value then some { d with upper := value } else none

/-- The events of a change of one end. -/
def eventsTo (old new : IntegerDomain) : List Event :=
  (if old.lower < new.lower then [.lowerBound] else []) ++
  (if new.upper < old.upper then [.upperBound] else []) ++
  (if new.lower = new.upper then [.assign] else [])

/-- The new domain holds exactly the old values on the kept side. -/
theorem admits_of_update? {d new : IntegerDomain} {side : Side} {bound value : Int}
    (h : d.update? side bound = some new) :
    new.Admits value ↔ d.Admits value ∧ side.Keeps bound value := by
  cases side <;> unfold update? at h <;> grind [Admits, Side.Keeps]

/-- An update fails exactly if no value of the domain lies on the kept side. -/
theorem update?_eq_none_iff {d : IntegerDomain} {side : Side} {bound : Int}
    (nonempty : d.lower ≤ d.upper) :
    d.update? side bound = none ↔ ∀ value, d.Admits value → ¬ side.Keeps bound value := by
  cases side <;> simp only [update?, Admits, Side.Keeps]
  · constructor
    · grind
    · intro none
      have := none d.upper ⟨nonempty, Int.le_refl _⟩
      grind
  · constructor
    · grind
    · intro none
      have := none d.lower ⟨Int.le_refl _, nonempty⟩
      grind

end IntegerDomain

/-- A domain before it was changed (`DomainChange`). -/
inductive Change
  | integer (x : IntegerId) (old : IntegerDomain)
  | interval (i : IntervalId) (old : Interval)
  deriving DecidableEq, Repr

/-- The domains of all variables with their trail and the pending events, oldest first
(`Assignments`). -/
structure Domains where
  integers : Table IntegerDomain
  intervals : Table Interval
  trail : Trail Change
  events : List (Watched × Event)
  deriving DecidableEq, Repr

namespace Domains

/-- No variables. -/
def empty : Domains := ⟨.empty, .empty, .empty, []⟩

/-- The key that the next integer variable gets. -/
def nextInteger (d : Domains) : IntegerId := ⟨d.integers.size⟩

/-- The key that the next interval variable gets. -/
def nextInterval (d : Domains) : IntervalId := ⟨d.intervals.size⟩

/-- Adds an integer variable; it stays when the search returns to an earlier checkpoint (`grow`). -/
def addInteger (d : Domains) (domain : IntegerDomain) : Domains :=
  { d with integers := d.integers.push domain }

/-- Adds an interval variable; it stays when the search returns to an earlier checkpoint
(`grow_interval`). -/
def addInterval (d : Domains) (domain : Interval) : Domains :=
  { d with intervals := d.intervals.push domain }

/-- The domain of an integer variable. -/
def integer (d : Domains) (x : IntegerId) : Except Fault IntegerDomain := d.integers.read x.index

/-- The domain of an interval variable (`interval`). -/
def interval (d : Domains) (i : IntervalId) : Except Fault Interval := d.intervals.read i.index

/-- Puts a domain back as it was before a change. -/
def restore (d : Domains) : Change → Domains
  | .integer x old => { d with integers := d.integers.set x.index old }
  | .interval i old => { d with intervals := d.intervals.set i.index old }

/-- Records a change and its events. -/
def commit (d : Domains) (change : Change) (v : Watched) (events : List Event) : Domains :=
  { d with
    trail := d.trail.push change
    events := d.events ++ events.map fun e => (v, e) }

/-- Removes the values of an integer variable beyond `value` on one side; `none` if none is left
(`tighten_lower_bound` and `tighten_upper_bound`). -/
def tighten (d : Domains) (x : IntegerId) (side : Side) (value : Int) :
    Except Fault (Option Domains) := do
  let old ← d.integer x
  match old.update? side value with
  | none => return none
  | some new =>
    if new = old then return some d
    let d := { d with integers := d.integers.set x.index new }
    return some (d.commit (.integer x old) (.integer x) (old.eventsTo new))

/-- Applies an update to an interval variable; `none` if no value is left (`update_interval`). -/
def update (d : Domains) (i : IntervalId) (u : Update) : Except Fault (Option Domains) := do
  let old ← d.interval i
  match old.update? u with
  | none => return none
  | some new =>
    if new = old then return some d
    let d := { d with intervals := d.intervals.set i.index new }
    return some (d.commit (.interval i old) (.interval i) (old.eventsTo new))

/-- Forgets the pending events (`drain_events`). -/
def dropEvents (d : Domains) : Domains := { d with events := [] }

/-- The current checkpoint (`get_checkpoint`). -/
def depth (d : Domains) : Nat := d.trail.depth

/-- Opens the next checkpoint (`new_checkpoint`). -/
def checkpoint (d : Domains) : Domains := { d with trail := d.trail.checkpoint }

/-- Returns to a checkpoint: the changes made since are undone, most recent first, and no event is
pending (`synchronise`). -/
def undoTo (d : Domains) (checkpoint : Nat) : Except Fault Domains := do
  let (popped, trail) ← d.trail.undoTo checkpoint
  return popped.foldl restore { d with trail, events := [] }

theorem integer_eq_ok_iff {d : Domains} {x : IntegerId} {domain : IntegerDomain} :
    d.integer x = .ok domain ↔ d.integers.get? x.index = some domain :=
  Table.read_eq_ok_iff

theorem interval_eq_ok_iff {d : Domains} {i : IntervalId} {domain : Interval} :
    d.interval i = .ok domain ↔ d.intervals.get? i.index = some domain :=
  Table.read_eq_ok_iff

end Domains

end Scheduling
