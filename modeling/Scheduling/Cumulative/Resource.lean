import Scheduling.Cumulative.TimeTable

/-!
# Cumulative resources

The level of a resource stays within its capacity wherever a present activity executes. Every run
builds the profile of the active activities, fails if the level is certainly outside the capacity,
and then filters the activities that are not fixed. The model of `GeneralizedCumulativePropagator`,
but for its filtering.

Absent activities leave the active set, and so do fixed ones that lie outside the span of time
stored by the run before: that span covers all activities that were not fixed then, together with
the fixed ones that it meets directly or through others (`Span.closure`).
-/

namespace Scheduling

/-- The choices that a user has (`GeneralizedCumulativeOptions`). -/
structure ResourceOptions where
  /-- Find activities that are needed to stay within the capacity. -/
  detectNeeded : Bool
  /-- Tighten heights and lengths, and not only starts and ends. -/
  filterHeights : Bool
  deriving DecidableEq, Repr

/-- All rules apply. -/
def ResourceOptions.all : ResourceOptions := ⟨true, true⟩

/-- A stretch of time. -/
structure Span where
  start : Int
  stop : Int
  deriving DecidableEq, Repr

namespace Span

/-- The span of nothing. -/
def none : Span := ⟨Width.w64.greatest, Width.w64.least⟩

/-- The span together with the time between the earliest start and the latest end of an activity. -/
def hull (s : Span) (b : Bounds) : Span := ⟨min s.start b.startMin, max s.stop b.endMax⟩

/-- Takes in an activity that the span meets. -/
def absorb (s : Span) (b : Bounds) : Span :=
  if b.startMin < s.stop && b.endMax > s.start then s.hull b else s

/-- Takes in the activities that the span meets directly or through others. Every round before the
last one takes in a further activity. -/
def closure (s : Span) (fixed : List Bounds) : Span :=
  fixed.foldl (fun s _ => fixed.foldl absorb s) s

/-- The span of the activities that are not fixed, and of the fixed ones that it meets. -/
def ofBounds (bounds : List ActivityBounds) : Span :=
  let moving := bounds.filter fun b => !b.isFixed
  let fixed := bounds.filter fun b => b.isFixed
  closure (moving.foldl (fun s b => s.hull b.toBounds) none) (fixed.map (·.toBounds))

end Span

/-- The activities and the capacity of a resource, which activities still matter, and the cells of
the span that the run before has stored (`GeneralizedCumulativePropagator`). -/
structure Resource where
  activities : Table Activity
  capacity : Capacity
  options : ResourceOptions
  active : SparseSet
  spanStart : CellId
  spanStop : CellId
  deriving DecidableEq, Repr

namespace Resource

/-- The name of the propagator. -/
def name : String := "GeneralizedCumulative"

/-- An activity is absent, or fixed and outside the span. -/
def isDone (d : Domains) (span : Span) (a : Activity) : Except Fault Bool := do
  let v ← d.interval a.interval
  let fixed ← a.isFixed d
  return v.isAbsent || (fixed && (v.endMax ≤ span.start || v.startMin ≥ span.stop))

/-- Takes the activities that are done at the positions below the given one out of the active set
(`remove_inactive_activities`). -/
def dropDone (span : Span) : Nat → Resource → StateT Store (Except Fault) Resource
  | 0, r => return r
  | position + 1, r => do
    let s ← get
    let a ← r.activities.read (← r.active.get position)
    if ← isDone s.domains span a then
      let (active, cells) ← r.active.removeAt position s.cells
      set { s with cells }
      dropDone span position { r with active }
    else dropDone span position r

/-- The active activities with their bounds (`capture_bounds`). -/
def capture (r : Resource) : Propagation (List Captured) := do
  let members ← r.active.members (← get).cells
  members.mapM fun index => do
    let a ← r.activities.read index
    return ⟨a, ← Propagation.inspect a.bounds⟩

/-- No height can be negative (`all_positive`). -/
def allPositive (bounds : List ActivityBounds) : Bool := bounds.all fun b => b.heightMin ≥ 0

/-- No height can be positive (`all_negative`). -/
def allNegative (bounds : List ActivityBounds) : Bool := bounds.all fun b => b.heightMax ≤ 0

/-- All heights are known (`all_heights_fixed`). -/
def allHeightsFixed (bounds : List ActivityBounds) : Bool :=
  bounds.all fun b => b.heightMin == b.heightMax

/-- All lengths are known (`all_lengths_fixed`). -/
def allLengthsFixed (bounds : List ActivityBounds) : Bool :=
  bounds.all fun b => b.lengthMin == b.lengthMax

/-- The level stays within the capacity whatever the activities do (`is_trivially_satisfied`). -/
def isSafe (c : Capacity) (bounds : List ActivityBounds) : Bool :=
  (!c.hasMaximum || (allNegative bounds && c.maximum ≥ 0)) &&
    (!c.hasMinimum || (allPositive bounds && c.minimum ≤ 0))

/-- The rules that can have an effect. Fixed heights that are not negative, fixed lengths and no
lower limit leave nothing to the rules for heights and lengths. -/
def rules (r : Resource) (bounds : List ActivityBounds) : Rules where
  heights := r.options.filterHeights &&
    !(allHeightsFixed bounds && allLengthsFixed bounds && allPositive bounds &&
      !r.capacity.hasMinimum)
  needed := r.options.detectNeeded && (r.capacity.hasMinimum || !allPositive bounds)

/-- Stores the span for the next run (`store_span`). -/
def storeSpan (r : Resource) (bounds : List ActivityBounds) : Propagation Unit := do
  let span := Span.ofBounds bounds
  Propagation.writeCell r.spanStart span.start
  Propagation.writeCell r.spanStop span.stop

/-- Tests the profile of the captured activities and filters those that are not fixed. -/
def filter (r : Resource) (context : Context) (captured : List Captured) : Propagation Unit := do
  let bounds := captured.map Captured.bounds
  let profile ← Profile.build bounds
  if !profile.isConsistent r.capacity.minimum r.capacity.maximum then Propagation.conflict name
  if bounds.all ActivityBounds.isFixed then Propagation.setActive context false
  else do
    let moving := captured.filter fun c => !c.bounds.isFixed
    moving.forM (TimeTable.filter ⟨profile, r.capacity⟩ (r.rules bounds))
    r.storeSpan bounds

/-- Filters the active activities, unless the level is safe anyway. -/
def propagate (r : Resource) (context : Context) : Propagation Unit := do
  let captured ← r.capture
  if captured.isEmpty then Propagation.setActive context false
  else if isSafe r.capacity (captured.map Captured.bounds) then do
    Propagation.say .capacitySafe
    Propagation.setActive context false
  else r.filter context captured

/-- One run (`propagate`). -/
def run (context : Context) (r : Resource) : StateT Store (Except Fault) (Resource × Status) := do
  let s ← get
  let span : Span := ⟨← s.cells.read r.spanStart, ← s.cells.read r.spanStop⟩
  let r ← dropDone span (← r.active.length s.cells) r
  return (r, ← (r.propagate context).run)

/-- Waits for any change of the activities (`create`). At first every activity is active and the
stored span is that of all time. -/
def blueprint (activities : List Activity) (capacity : Capacity) (options : ResourceOptions) :
    Blueprint Resource where
  watches := activities.flatMap Activity.watches
  cells := [Int.ofNat activities.length, Width.w64.least, Width.w64.greatest]
  build _ cell := {
    activities := .ofList activities
    capacity
    options
    active := .full activities.length cell
    spanStart := ⟨cell.index + 1⟩
    spanStop := ⟨cell.index + 2⟩ }
  notes _ := []

end Resource

instance : Propagator Resource where
  name _ := Resource.name
  priority _ := .veryLow
  run := Resource.run

end Scheduling
