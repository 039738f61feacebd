import Scheduling.Memory
import Scheduling.Word

/-!
# Fixed schedules

Activities with a known start, end and height, and whether their level stays within a capacity
wherever one of them executes. The level changes only where an activity starts or ends, so that it
is tested at these times. The model of `check_fixed`.

* `FixedSchedule.level`: the level at a time; `FixedSchedule.levelAt` computes it in words.
* `FixedSchedule.isWithin`: the test.
* `FixedSchedule.eq_level_of_levelAt`: where the computation succeeds, it finds the level.
-/

namespace Scheduling

/-- A present activity with a known start, end and height (`FixedActivity`). -/
structure FixedActivity where
  start : Int
  stop : Int
  height : Int
  deriving DecidableEq, Repr

/-- The activity executes at a time. -/
def FixedActivity.executesAt (a : FixedActivity) (time : Int) : Bool :=
  a.start ≤ time && time < a.stop

/-- A list of activities. -/
abbrev FixedSchedule := List FixedActivity

namespace FixedSchedule

/-- The activities that execute at all. -/
def executing (s : FixedSchedule) : FixedSchedule := s.filter fun a => decide (a.start < a.stop)

/-- The earliest start and the latest end. -/
def span (s : FixedSchedule) : Int × Int :=
  s.foldl (fun (first, last) a => (min first a.start, max last a.stop))
    (Width.w64.greatest, Width.w64.least)

/-- The times at which the level may change. -/
def changes (s : FixedSchedule) : List Int := s.flatMap fun a => [a.start, a.stop]

/-- The level at a time, of any size. -/
def level (s : FixedSchedule) (time : Int) : Int :=
  (s.filter (·.executesAt time)).foldr (fun a level => a.height + level) 0

/-- The level at a time; no partial sum may leave its word. -/
def levelAt (s : FixedSchedule) (time : Int) : Except Fault Int :=
  (s.filter (·.executesAt time)).foldlM (fun level a => Width.w64.add level a.height) 0

/-- At every time at which some activity executes, the level lies within the capacity
(`check_fixed`). A span too long for a table of its levels is a fault. -/
def isWithin (s : FixedSchedule) (minCapacity maxCapacity : Int) : Except Fault Bool := do
  let s := s.executing
  let (first, last) := s.span
  if first ≥ last then return true
  let duration ← Width.w64.sub last first
  Memory.reserve duration.toNat 8
  let levels ← s.changes.mapM fun time => do return (time, ← s.levelAt time)
  return levels.all fun (time, level) =>
    !s.any (·.executesAt time) || (minCapacity ≤ level && level ≤ maxCapacity)

theorem eq_of_foldlM_add {s : FixedSchedule} {start r : Int}
    (h : s.foldlM (fun level a => Width.w64.add level a.height) start = .ok r) :
    r = start + s.foldr (fun a level => a.height + level) 0 := by
  induction s generalizing start with
  | nil =>
    simp only [List.foldlM_nil, pure, Except.pure, Except.ok.injEq] at h
    simp [h]
  | cons a s ih =>
    rw [List.foldlM_cons] at h
    cases first : Width.w64.add start a.height with
    | error fault => simp [first, bind, Except.bind] at h
    | ok next =>
      have sum := (Width.add_eq_ok_iff.1 first).2
      simp only [first, bind, Except.bind] at h
      rw [ih h, sum, List.foldr_cons]
      omega

/-- Where the computation succeeds, it finds the level. -/
theorem eq_level_of_levelAt {s : FixedSchedule} {time r : Int} (h : s.levelAt time = .ok r) :
    r = s.level time := by
  rw [eq_of_foldlM_add h, level]
  omega

end FixedSchedule

end Scheduling
