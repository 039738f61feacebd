import Scheduling.Proofs.Disjunctive.Ordering
import Scheduling.Proofs.Disjunctive.Sequencing
import Scheduling.Proofs.Family
import Scheduling.Proofs.FreeRun

/-!
# Machines and precedences lose no solution

Given an assignment within the domains in which the intervals execute one after the other, in the
order that the literals of their pairs state, a run of a precedence or of a machine can neither
fault nor fail, and the assignment still lies within the domains afterwards.

Results:
* `Machine.schedule`: the schedule of the tasks on a timeline that an assignment makes.
* `Machine.fits_schedule`: the tasks of a machine leave room for it, in both directions.
* `Machine.exists_run`, `Precedence.exists_run`: the runs of the propagators.
* `NoOverlap.Sequenced.holds`: what satisfies the pairs satisfies the constraint.
* `NoOverlap.exists_call_of_sequenced`: no call in any run of a solver loses a solution.
-/

namespace Scheduling

open Propagation

/-- One of the intervals ends before the other one starts, if both take place. -/
def IntervalValue.Apart (x y : IntervalValue) : Prop := x.Precedes y ∨ y.Precedes x

theorem IntervalValue.Apart.symm {x y : IntervalValue} (h : x.Apart y) : y.Apart x := Or.symm h

/-- Every value of a present interval is a placement. -/
theorem Interval.Admits.exists_placed {v : Interval} {value : IntervalValue} (h : v.Admits value)
    (present : v.isPresent = true) :
    ∃ start length, value = .placed start length ∧ v.toBounds.Admits start length := by
  cases value with
  | absent => simp_all [Interval.Admits, Interval.isPresent]
  | placed start length => exact ⟨start, length, rfl, h.2⟩

namespace Direction

/-- The time at which an interval starts on the timeline. -/
def startOf : Direction → IntervalValue → Int
  | _, .absent => 0
  | forward, .placed start _ => start
  | mirrored, .placed start length => -(start + length)

/-- The time at which an interval ends on the timeline. -/
def stopOf : Direction → IntervalValue → Int
  | _, .absent => 0
  | forward, .placed start length => start + length
  | mirrored, .placed start _ => -start

/-- The other direction. -/
def opposite : Direction → Direction
  | forward => mirrored
  | mirrored => forward

/-- Intervals that are apart are so on every timeline. -/
theorem stopOf_le_startOf {x y : IntervalValue} (apart : x.Apart y) (present : x.isPresent = true)
    (present' : y.isPresent = true) (dir : Direction) :
    dir.stopOf x ≤ dir.startOf y ∨ dir.stopOf y ≤ dir.startOf x := by
  cases x with
  | absent => cases present
  | placed start length =>
    cases y with
    | absent => cases present'
    | placed start' length' =>
      simp only [IntervalValue.Apart, IntervalValue.Precedes] at apart
      cases dir <;> simp only [stopOf, startOf] <;> omega

variable {v : Interval} {value : IntervalValue}

/-- A value of a domain lies between the bounds that its direction reads off. -/
theorem startOf_between (wellFormed : v.WellFormed) (admits : v.Admits value)
    (present : value.isPresent = true) (dir : Direction) :
    dir.earliestStart v.toBounds ≤ dir.startOf value ∧
      dir.startOf value ≤ dir.latestStart v.toBounds ∧
      dir.startOf value + v.lengthMin ≤ dir.stopOf value ∧
      dir.stopOf value ≤ dir.latestEnd v.toBounds ∧
      -horizon ≤ dir.earliestStart v.toBounds ∧ dir.latestEnd v.toBounds ≤ horizon := by
  cases value with
  | absent => cases present
  | placed start length =>
    obtain ⟨-, least, most, first, last, short, long⟩ := admits
    have within := Bounds.Settled.withinHorizon wellFormed
    obtain ⟨h1, h2, h3, h4, h5, h6⟩ := within
    cases dir <;>
      simp only [earliestStart, latestStart, latestEnd, startOf, stopOf] <;> omega

variable {s s₀ : Store} {a : Assignment} {i : IntervalId} {row : Interval} {time : Int}

/-- Raising the start on a timeline up to that of the assignment keeps the assignment. -/
theorem returns_raiseStart {dir : Direction} (h : s₀.Keeps a s)
    (here : s₀.domains.interval i = .ok row) (least : -horizon ≤ time) (most : time ≤ horizon)
    (keeps : (a.interval i).isPresent = true → time ≤ dir.startOf (a.interval i)) :
    Returns (dir.raiseStart i time) s fun _ s' => s₀.Keeps a s' := by
  simp only [horizon] at least most
  cases dir with
  | forward =>
    have word : Width.w32.saturate time = time :=
      Width.saturate_eq_self (by simp only [Width.Holds, Width.least, Width.greatest]; omega)
    simp only [raiseStart, word]
    refine returns_tighten h here fun start length placed => ?_
    simpa [placed, startOf, Bound.Keeps] using keeps (by rw [placed]; rfl)
  | mirrored =>
    have word : Width.w32.saturate (-time) = -time :=
      Width.saturate_eq_self (by simp only [Width.Holds, Width.least, Width.greatest]; omega)
    simp only [raiseStart, word]
    refine returns_tighten h here fun start length placed => ?_
    have := keeps (by rw [placed]; rfl)
    simp only [placed, startOf] at this
    simp only [Bound.Keeps]
    omega

/-- Lowering the end on a timeline is raising the start on the opposite one. -/
theorem lowerEnd_eq (dir : Direction) (i : IntervalId) (time : Int) :
    dir.lowerEnd i time = dir.opposite.raiseStart i (-time) := by
  cases dir <;> simp [lowerEnd, raiseStart, opposite]

theorem stopOf_eq (dir : Direction) (x : IntervalValue) :
    dir.stopOf x = -dir.opposite.startOf x := by
  cases dir <;> cases x <;> simp [stopOf, startOf, opposite]

/-- Lowering the end on a timeline down to that of the assignment keeps the assignment. -/
theorem returns_lowerEnd {dir : Direction} (h : s₀.Keeps a s)
    (here : s₀.domains.interval i = .ok row) (least : -horizon ≤ time) (most : time ≤ horizon)
    (keeps : (a.interval i).isPresent = true → dir.stopOf (a.interval i) ≤ time) :
    Returns (dir.lowerEnd i time) s fun _ s' => s₀.Keeps a s' := by
  rw [lowerEnd_eq]
  refine returns_raiseStart h here (by omega) (by omega) fun present => ?_
  have := keeps present
  rw [stopOf_eq] at this
  omega

end Direction

/-- Computations that read one by one what a list holds find what a function makes of it. -/
theorem Propagation.returns_filterMapM {α β : Type} {l : List α} {f : α → Propagation (Option β)}
    {g : α → Option β} {s : Store}
    (h : ∀ x ∈ l, Returns (f x) s fun y s' => s' = s ∧ y = g x) :
    Returns (l.filterMapM f) s fun ys s' => s' = s ∧ ys = l.filterMap g := by
  induction l with
  | nil => exact returns_pure ⟨rfl, rfl⟩
  | cons x l ih =>
    have rest := ih fun x mem => h x (List.mem_cons_of_mem _ mem)
    rw [List.filterMapM_cons]
    refine returns_bind (h x List.mem_cons_self) ?_
    rintro y _ ⟨rfl, rfl⟩
    cases found : g x with
    | none => exact rest.weaken fun ys s' ⟨same, eq⟩ => ⟨same, by simp [found, eq]⟩
    | some y =>
      refine returns_bind rest ?_
      rintro ys _ ⟨rfl, rfl⟩
      exact returns_pure ⟨rfl, by simp [found]⟩

namespace Machine

/-! ## The schedule that an assignment makes -/

/-- The task is that of an interval with the given domain. -/
structure Reads (dir : Direction) (d : Domains) (x : MachineTask) (v : Interval) : Prop where
  row : d.interval x.interval = .ok v
  isAbsent : v.isAbsent = false
  isOptional : x.isOptional = v.isOptional
  startMin : x.startMin = dir.earliestStart v.toBounds
  duration : x.duration = v.lengthMin
  endMax : x.endMax = if v.isOptional then optionalEnd else dir.latestEnd v.toBounds

theorem reads_of_task? {dir : Direction} {d : Domains} {i : IntervalId} {v : Interval}
    {x : MachineTask} (row : d.interval i = .ok v) (found : task? dir i v = some x) :
    x.interval = i ∧ Reads dir d x v := by
  unfold task? at found
  split at found
  · cases found
  · rename_i there
    cases found
    exact ⟨rfl, row, by simpa using there, rfl, rfl, rfl, rfl⟩

theorem reads_of_taskOf {m : Machine} {dir : Direction} {d : Domains} {k : Nat} {x : MachineTask}
    (found : m.taskOf dir d k = some x) :
    m.intervals.get? k = some x.interval ∧ ∃ v, Reads dir d x v := by
  unfold taskOf at found
  split at found
  · cases found
  rename_i i here
  split at found
  · rename_i v row
    obtain ⟨rfl, reads⟩ := reads_of_task? row found
    exact ⟨here, v, reads⟩
  · cases found

/-- Every task of a machine reads an interval. -/
theorem exists_reads {m : Machine} {dir : Direction} {d : Domains} {ks : List Nat} {x : MachineTask}
    (mem : x ∈ ks.filterMap (m.taskOf dir d)) : ∃ v, Reads dir d x v := by
  obtain ⟨k, -, found⟩ := List.mem_filterMap.1 mem
  exact (reads_of_taskOf found).2

section Reads

variable {dir : Direction} {d : Domains} {a : Assignment} {x : MachineTask} {v : Interval}
  (h : Reads dir d x v) (wellFormed : d.WellFormed)
include h wellFormed

/-- A task lasts for a time that is not negative, and starts within the horizon. -/
theorem Reads.within : 0 ≤ x.duration ∧ x.duration ≤ 2 * horizon ∧ -horizon ≤ x.startMin ∧
    x.startMin ≤ horizon := by
  obtain ⟨h1, h2, h3, h4, h5, h6⟩ := (wellFormed.interval _ v h.row).withinHorizon
  rw [h.duration, h.startMin]
  cases dir <;> simp only [Direction.earliestStart] <;> omega

/-- A task ends within the horizon, or its end is unlimited. -/
theorem Reads.endMax_between :
    x.endMax = optionalEnd ∨ -horizon ≤ x.endMax ∧ x.endMax ≤ horizon := by
  obtain ⟨h1, h2, h3, h4, h5, h6⟩ := (wellFormed.interval _ v h.row).withinHorizon
  rw [h.endMax]
  split
  · exact .inl rfl
  · cases dir <;> simp only [Direction.latestEnd] <;> omega

variable (admits : d.Admits a)
include admits

/-- The end of a task is unlimited, or the assignment lets its interval take place. -/
theorem Reads.ends : x.isOptional = true ∧ x.endMax = optionalEnd ∨
    x.isOptional = false ∧ x.endMax ≤ horizon ∧ (a.interval x.interval).isPresent = true := by
  rw [h.isOptional, h.endMax]
  cases optional : v.isOptional with
  | true => exact .inl ⟨rfl, rfl⟩
  | false =>
    have inside := admits.interval _ v h.row
    have present : (a.interval x.interval).isPresent = true := by
      cases value : a.interval x.interval with
      | placed start length => rfl
      | absent =>
        have there := h.isAbsent
        rw [value] at inside
        simp only [Interval.Admits, Interval.isAbsent, Interval.isOptional] at inside there optional
        cases known : v.presence <;> simp_all
    have bounds := Direction.startOf_between (wellFormed.interval _ v h.row) inside present dir
    exact .inr ⟨rfl, by simpa using bounds.2.2.2.2.2, present⟩

/-- An interval that takes place executes within the bounds of its task. -/
theorem Reads.between (present : (a.interval x.interval).isPresent = true) :
    x.startMin ≤ dir.startOf (a.interval x.interval) ∧
      dir.startOf (a.interval x.interval) + x.duration ≤ dir.stopOf (a.interval x.interval) ∧
      dir.stopOf (a.interval x.interval) ≤ x.endMax ∧
      dir.stopOf (a.interval x.interval) ≤ horizon := by
  obtain ⟨h1, h2, h3, h4, h5, h6⟩ := Direction.startOf_between (wellFormed.interval _ v h.row)
    (admits.interval _ v h.row) present dir
  rw [h.startMin, h.duration, h.endMax]
  refine ⟨h1, h3, ?_, by omega⟩
  split
  · simp only [optionalEnd, horizon] at *
    omega
  · exact h4

end Reads

variable {a : Assignment} {dir : Direction} {d : Domains} {tasks : List MachineTask}

/-- The intervals of any two tasks are apart under the assignment. -/
def Sequenced (a : Assignment) (tasks : List MachineTask) : Prop :=
  tasks.Pairwise fun x y => (a.interval x.interval).Apart (a.interval y.interval)

theorem Sequenced.stop_le_start (h : Sequenced a tasks) (dir : Direction) {k l : Fin tasks.length}
    (present : (a.interval (tasks.get k).interval).isPresent = true)
    (present' : (a.interval (tasks.get l).interval).isPresent = true) (differs : k ≠ l) :
    dir.stopOf (a.interval (tasks.get k).interval) ≤ dir.startOf (a.interval (tasks.get l).interval) ∨
      dir.stopOf (a.interval (tasks.get l).interval) ≤
        dir.startOf (a.interval (tasks.get k).interval) := by
  refine Direction.stopOf_le_startOf ?_ present present' dir
  have apart := List.pairwise_iff_getElem.1 h
  rcases Nat.lt_or_gt_of_ne (fun eq => differs (Fin.ext eq)) with lt | gt
  · exact apart k l k.isLt l.isLt lt
  · exact (apart l k l.isLt k.isLt gt).symm

/-- The schedule of tasks on a timeline that an assignment makes. -/
def schedule (dir : Direction) (h : Sequenced a tasks) : Schedule tasks.length where
  placed := Finset.univ.filter fun k => (a.interval (tasks.get k).interval).isPresent = true
  start k := dir.startOf (a.interval (tasks.get k).interval)
  stop k := dir.stopOf (a.interval (tasks.get k).interval)
  apart _ mem _ mem' differs :=
    h.stop_le_start dir (Finset.mem_filter.1 mem).2 (Finset.mem_filter.1 mem').2 differs

theorem mem_placed {h : Sequenced a tasks} {k : Fin tasks.length} :
    k ∈ (schedule dir h).placed ↔ (a.interval (tasks.get k).interval).isPresent = true := by
  simp [schedule]

theorem toTasks_startMin (k : Fin tasks.length) :
    (toTasks tasks).startMin.get k = (tasks.get k).startMin := by
  simp [toTasks]

theorem toTasks_duration (k : Fin tasks.length) :
    (toTasks tasks).duration.get k = (tasks.get k).duration := by
  simp [toTasks]

theorem toTasks_endMax (k : Fin tasks.length) :
    (toTasks tasks).endMax.get k = (tasks.get k).endMax := by
  simp [toTasks]

/-- The tasks of a machine are on a timeline. -/
theorem timely_toTasks (wellFormed : d.WellFormed) (reads : ∀ x ∈ tasks, ∃ v, Reads dir d x v) :
    (toTasks tasks).Timely := by
  have task (k : Fin tasks.length) := reads _ (List.get_mem tasks k)
  have within (k : Fin tasks.length) := (task k).elim fun _ reads => reads.within wellFormed
  exact {
    duration_nonneg := fun k => by rw [toTasks_duration]; exact (within k).1
    duration_le := fun k => by rw [toTasks_duration]; exact (within k).2.1
    le_startMin := fun k => by rw [toTasks_startMin]; exact (within k).2.2.1
    startMin_le := fun k => by rw [toTasks_startMin]; exact (within k).2.2.2
    ends := fun k => by
      rw [toTasks_endMax]
      exact (task k).elim fun _ reads => reads.endMax_between wellFormed }

/-- The tasks of a few intervals are of moderate size. -/
theorem moderate_toTasks (few : tasks.length < 2 ^ 30) (wellFormed : d.WellFormed)
    (reads : ∀ x ∈ tasks, ∃ v, Reads dir d x v) : (toTasks tasks).Moderate :=
  { timely_toTasks wellFormed reads with few }

/-- The tasks of a machine leave room for the schedule of an assignment within the domains. -/
theorem fits_schedule (h : Sequenced a tasks) (few : tasks.length < 2 ^ 30)
    (wellFormed : d.WellFormed) (admits : d.Admits a) (reads : ∀ x ∈ tasks, ∃ v, Reads dir d x v) :
    (schedule dir h).Fits (toTasks tasks) := by
  have task (k : Fin tasks.length) := reads _ (List.get_mem tasks k)
  have between {k : Fin tasks.length} (mem : k ∈ (schedule dir h).placed) :=
    (task k).elim fun _ reads => reads.between wellFormed admits (mem_placed.1 mem)
  exact { moderate_toTasks few wellFormed reads with
    ends := fun k => by
      rw [toTasks_endMax]
      rcases (task k).elim fun _ reads => reads.ends wellFormed admits with ⟨-, eq⟩ | ⟨-, le, present⟩
      · exact .inl eq
      · exact .inr ⟨mem_placed.2 present, le⟩
    starts := fun k mem => by rw [toTasks_startMin]; exact (between mem).1
    lasts := fun k mem => by rw [toTasks_duration]; exact (between mem).2.1
    stops := fun k mem => by rw [toTasks_endMax]; exact (between mem).2.2.1
    stop_le := fun k mem => (between mem).2.2.2 }

/-! ## A pass over the timeline -/

variable {s s₀ : Store}

/-- What the filter found about a task leaves the assignment. -/
theorem returns_apply {x : MachineTask} {v : Interval} {startMin endMax : Int} (keeps : s₀.Keeps a s)
    (wellFormed : s₀.domains.WellFormed) (admits : s₀.domains.Admits a)
    (reads : Reads dir s₀.domains x v) (least : -horizon ≤ startMin) (most : startMin ≤ horizon)
    (starts : (a.interval x.interval).isPresent = true →
      startMin ≤ dir.startOf (a.interval x.interval))
    (stops : (a.interval x.interval).isPresent = true →
      dir.stopOf (a.interval x.interval) ≤ endMax) :
    Returns (apply dir x startMin endMax) s fun _ s' => s₀.Keeps a s' := by
  have row := reads.row
  obtain ⟨w, row', -⟩ := keeps.narrows.interval _ v row
  refine returns_inspect_bind row' ?_
  split
  · -- The interval would start later than it can, so that the assignment leaves it out.
    rename_i pushed
    simp only [Bool.and_eq_true, decide_eq_true_eq] at pushed
    refine returns_bind (returns_say (Q := fun _ s' => s₀.Keeps a s') (keeps.say _))
      fun _ _ keeps' => returns_update keeps' row ?_
    cases value : a.interval x.interval with
    | absent => rfl
    | placed start length =>
      have present : (a.interval x.interval).isPresent = true := by rw [value]; rfl
      have := starts present
      have := (Direction.startOf_between (keeps.wellFormed.interval _ w row')
        (keeps.admits.interval _ w row') present dir).2.1
      omega
  · refine returns_when (fun _ => Direction.returns_raiseStart keeps row least most starts) keeps
      fun t keeps => ?_
    split
    · rename_i lowered
      simp only [Bool.and_eq_true, Bool.not_eq_true', decide_eq_true_eq] at lowered
      rcases reads.ends wellFormed admits with ⟨optional, -⟩ | ⟨-, le, present⟩
      · simp [optional] at lowered
      · have := stops present
        have := reads.between wellFormed admits present
        have := reads.within wellFormed
        exact Direction.returns_lowerEnd keeps row (by omega) (by omega) stops
    · exact returns_pure keeps

theorem Fits.getElem?_eq {is : List IntervalId} {m : Machine} {values : Table Int} {n : Nat}
    (h : Fits is m d values n) (k : Nat) : is[k]? = m.intervals.get? k := by
  rw [← h.intervals, Table.get?, Table.toList, Array.getElem?_toList]

theorem Fits.length_tasks_le {is : List IntervalId} {m : Machine} {values : Table Int} {n : Nat}
    (h : Fits is m d values n) :
    ((m.active.elements.toList.take n).filterMap (m.taskOf dir d)).length ≤ is.length := by
  refine (List.length_filterMap_le _ _).trans ?_
  rw [List.length_take, ← h.intervals]
  have size := h.valid.size
  simp only [Table.size, Table.toList, Array.length_toList] at size ⊢
  omega

theorem Fits.moderate {is : List IntervalId} {m : Machine} {values : Table Int} {n : Nat}
    (few : is.length < 2 ^ 30) (wellFormed : d.WellFormed) (fits : Fits is m d values n) :
    (toTasks ((m.active.elements.toList.take n).filterMap (m.taskOf dir d))).Moderate :=
  moderate_toTasks (Nat.lt_of_le_of_lt fits.length_tasks_le few) wellFormed fun _ mem =>
    exists_reads mem

/-- The tasks of the active intervals can be read. -/
theorem returns_tasks {is : List IntervalId} {m : Machine} {n : Nat}
    (fits : Fits is m s.domains s.cells.values n) :
    Returns (m.tasks dir) s fun tasks s' => s' = s ∧
      tasks = (m.active.elements.toList.take n).filterMap (m.taskOf dir s.domains) := by
  refine returns_bind (Q := fun t s' => t = s ∧ s' = s) ⟨s, s, rfl, rfl, rfl⟩ ?_
  rintro _ _ ⟨rfl, rfl⟩
  refine returns_liftM_bind (SparseSet.members_eq_ok fits.size) (returns_filterMapM fun k mem => ?_)
  have lt := fits.valid.lt_of_has (SparseSet.mem_take_iff.1 mem)
  obtain ⟨i, here⟩ := Table.exists_get? lt
  have listed : i ∈ is := List.mem_of_getElem? ((fits.getElem?_eq k).trans here)
  obtain ⟨v, found⟩ := Table.exists_get? (fits.known i listed)
  have row := Domains.interval_eq_ok_iff.2 found
  refine returns_liftM_bind (Table.read_eq_ok_iff.2 here) (returns_inspect_bind row ?_)
  exact returns_pure ⟨rfl, by simp [taskOf, here, row]⟩

/-- The tasks of different active intervals are apart. -/
theorem sequenced_tasks {is : List IntervalId} {m : Machine} {values : Table Int} {n : Nat}
    (fits : Fits is m d values n)
    (separates : a.Separates is) :
    Sequenced a ((m.active.elements.toList.take n).filterMap (m.taskOf dir d)) := by
  refine List.pairwise_filterMap.2 (List.Nodup.pairwise_of_forall_ne ?_ ?_)
  · exact fits.valid.nodup_take n
  · rintro k - l - differs x found y found'
    obtain ⟨inside, here⟩ := List.getElem?_eq_some_iff.1
      ((fits.getElem?_eq k).trans (reads_of_taskOf found).1)
    obtain ⟨inside', there⟩ := List.getElem?_eq_some_iff.1
      ((fits.getElem?_eq l).trans (reads_of_taskOf found').1)
    rw [← here, ← there]
    have apart := List.pairwise_iff_getElem.1 separates
    rcases Nat.lt_or_gt_of_ne differs with lt | gt
    · exact apart k l inside inside' lt
    · exact (apart l k inside' inside gt).symm

/-- A pass over the timeline succeeds and keeps the assignment. -/
theorem returns_filterOn {is : List IntervalId} {m : Machine} {n : Nat} (few : is.length < 2 ^ 30)
    (separates : a.Separates is)
    (wellFormed : s.domains.WellFormed) (admits : s.domains.Admits a)
    (fits : Fits is m s.domains s.cells.values n) :
    Returns (m.filterOn dir) s fun _ s' => s.Keeps a s' := by
  refine returns_bind (returns_tasks fits) fun tasks t ⟨same, listed⟩ => ?_
  subst same
  have sequenced : Sequenced a tasks := listed ▸ sequenced_tasks fits separates
  have reads : ∀ x ∈ tasks, ∃ v, Reads dir t.domains x v := fun x mem =>
    exists_reads (listed ▸ mem)
  have length : tasks.length ≤ is.length := listed ▸ fits.length_tasks_le
  have room := fits_schedule sequenced (by omega) wellFormed admits reads
  obtain ⟨verdict, filtered, filtering, feasible, room⟩ := room.exists_filter
  refine returns_liftM_bind filtering ?_
  have start : t.Keeps a t := .refl wellFormed admits
  cases verdict with
  | infeasible => exact absurd rfl feasible
  | unchanged => exact returns_pure start
  | changed =>
    refine returns_forM start fun k _ u keeps => ?_
    obtain ⟨v, read⟩ := reads _ (List.get_mem _ k)
    exact returns_apply keeps wellFormed admits read (room.le_startMin k) (room.startMin_le k)
      (fun present => room.starts k (mem_placed.2 present))
      fun present => room.stops k (mem_placed.2 present)

/-- A machine succeeds and keeps the assignment. -/
theorem returns_propagate {is : List IntervalId} {m : Machine} {n : Nat} (context : Context)
    (few : is.length < 2 ^ 30) (separates : a.Separates is)
    (wellFormed : s.domains.WellFormed) (admits : s.domains.Admits a)
    (fits : Fits is m s.domains s.cells.values n)
    (inside : context.activity.index < s.cells.values.size) :
    Returns (m.propagate context) s fun _ s' => s'.domains.Admits a := by
  refine returns_bind (Q := fun t s' => t = s ∧ s' = s) ⟨s, s, rfl, rfl, rfl⟩ ?_
  rintro _ t ⟨rfl, rfl⟩
  refine returns_liftM_bind (SparseSet.length_eq_ok fits.size) ?_
  split
  · exact returns_writeCell inside fun _ _ => admits
  · refine returns_bind (returns_filterOn few separates wellFormed admits fits) fun _ u keeps => ?_
    refine (returns_filterOn few separates keeps.wellFormed keeps.admits
      (fits.mono keeps.narrows (by rw [keeps.cells]))).weaken fun _ u' keeps' => keeps'.admits

/-- The walk over the active set can look at every interval. -/
theorem Fits.exists_isAbsent {is : List IntervalId} {m : Machine} {values : Table Int} {n : Nat}
    (fits : Fits is m d values n) {k : Nat} (lt : k < m.intervals.size) : ∃ answer,
      (do return (← d.interval (← m.intervals.read k)).isAbsent) =
        (.ok answer : Except Fault Bool) := by
  obtain ⟨i, here⟩ := Table.exists_get? lt
  obtain ⟨v, found⟩ := Table.exists_get?
    (fits.known i (List.mem_of_getElem? ((fits.getElem?_eq k).trans here)))
  refine ⟨v.isAbsent, ?_⟩
  rw [Table.read_eq_ok_iff.2 here]
  simp only [Domains.interval_eq_ok_iff.2 found, bind, Except.bind, pure, Except.pure]

/-- A run is a walk over the active set, and a propagation. -/
theorem run_of_sweep {is : List IntervalId} {m : Machine} {n : Nat} {s' : Store} {context : Context}
    {status : Status} {active : SparseSet} {cells : Cells}
    (fits : Fits is m s.domains s.cells.values n)
    (swept : SparseSet.sweep (fun index => do
      return (← s.domains.interval (← m.intervals.read index)).isAbsent) n m.active s.cells =
        .ok (active, cells))
    (propagated : (({ m with active } : Machine).propagate context).exec { s with cells } =
      .ok (status, s')) :
    (run context m).run s = .ok (({ m with active }, status), s') := by
  have dropped : (dropAbsent n m).run s = .ok ({ m with active }, { s with cells }) := by
    rw [dropAbsent_eq_sweep, swept]
    rfl
  exact run_bind_eq_ok_iff.2 ⟨s, s, rfl, run_bind_eq_ok_iff.2 ⟨n, s,
    run_liftM_eq_ok_iff.2 ⟨SparseSet.length_eq_ok fits.size, rfl⟩,
    run_bind_eq_ok_iff.2 ⟨_, _, dropped, run_bind_eq_ok_iff.2 ⟨_, s', propagated, rfl⟩⟩⟩⟩

/-- A run succeeds and keeps the assignment. -/
theorem exists_run {is : List IntervalId} {m : Machine} {n : Nat} (context : Context)
    (few : is.length < 2 ^ 30) (separates : a.Separates is)
    (wellFormed : s.domains.WellFormed) (admits : s.domains.Admits a)
    (fits : Fits is m s.domains s.cells.values n)
    (inside : context.activity.index < s.cells.values.size) :
    ∃ m' s', (run context m).run s = .ok ((m', .ok ()), s') ∧ s'.domains.Admits a := by
  obtain ⟨⟨active, cells⟩, swept⟩ := SparseSet.exists_sweep fits.valid fits.size fits.le
    (Nat.le_refl n) fun _ => fits.exists_isAbsent
  obtain ⟨-, evolves, n', -, fits', -, -⟩ := fits_of_sweep fits swept
  obtain ⟨_, s', propagated, kept⟩ := returns_propagate context (s := { s with cells }) few
    separates wellFormed admits fits' (by rw [evolves.size]; exact inside)
  exact ⟨{ m with active }, s', run_of_sweep fits swept propagated, kept⟩

end Machine

/-! ## Literals of an assignment -/

namespace Domains.Binary

variable {d : Domains} {l : Literal} {value : Bool} {a : Assignment} (h : d.Binary l)
include h

/-- Giving a literal the truth value that it has in an assignment keeps the assignment. -/
theorem exists_assign (wellFormed : d.WellFormed) (admits : d.Admits a)
    (holds : a.value (.literal l) = if value then 1 else 0) :
    ∃ d', l.assign value d = .ok (some d') ∧ d'.Admits a := by
  obtain ⟨row, here, -⟩ := h
  have rowWellFormed := wellFormed.integer _ row here
  obtain ⟨domain, positive⟩ := l
  have raise (keeps : 1 ≤ a.integer domain) :=
    exists_tighten rowWellFormed here admits (show Side.lower.Keeps 1 _ from keeps)
  have lower (keeps : a.integer domain ≤ 0) :=
    exists_tighten rowWellFormed here admits (show Side.upper.Keeps 0 _ from keeps)
  cases positive <;> cases value <;>
    simp [Assignment.value, Variable.base, Variable.eval, Affine.eval, Literal.affine] at holds
  · exact raise (by omega)
  · exact lower (by omega)
  · exact lower (by omega)
  · exact raise (by omega)

/-- In an assignment a literal has one of the two truth values. -/
theorem exists_value (admits : d.Admits a) :
    ∃ value : Bool, a.value (.literal l) = if value then 1 else 0 := by
  obtain ⟨row, here, least, most⟩ := h
  obtain ⟨low, high⟩ := admits.integer _ row here
  obtain ⟨domain, positive⟩ := l
  have value : a.value (.literal ⟨domain, positive⟩) =
      if positive then a.integer domain else 1 - a.integer domain := by
    cases positive <;>
      simp [Assignment.value, Variable.base, Variable.eval, Affine.eval, Literal.affine]
    omega
  have binary : a.integer domain = 0 ∨ a.integer domain = 1 := by
    simp only at low high
    omega
  rw [value]
  rcases binary with zero | one
  · exact ⟨!positive, by cases positive <;> simp [zero]⟩
  · exact ⟨positive, by cases positive <;> simp [one]⟩

variable (wellFormed : d.WellFormed)
include wellFormed

/-- The truth value of a known literal is the one that it has in every assignment. -/
theorem value_of_decides (admits : d.Admits a) (known : d.Decides l value) :
    a.value (.literal l) = if value then 1 else 0 := by
  obtain ⟨row, here, least, most⟩ := h
  rw [decides_iff here (wellFormed.integer _ row here) least most] at known
  have inside := admits.integer _ row here
  obtain ⟨domain, positive⟩ := l
  obtain ⟨low, high⟩ : row.lower ≤ a.integer domain ∧ a.integer domain ≤ row.upper := inside
  subst known
  cases positive <;> cases value <;> simp [point] at low high <;>
    simp [Assignment.value, Variable.base, Variable.eval, Affine.eval, Literal.affine] <;> omega

/-- Whether a literal is known, and how, can be read off. -/
theorem exists_answer (value : Bool) :
    ∃ answer, (if value then l.isTrue d else l.isFalse d) = .ok answer := by
  obtain ⟨row, here, least, most⟩ := h
  have ends := bound_literal here (wellFormed.integer _ row here) least most
  cases value <;>
    simp [Literal.isTrue, Literal.isFalse, Variable.lower, Variable.upper, ends, bind, Except.bind,
      pure, Except.pure]

theorem exists_isFixed : ∃ answer, (Variable.literal l).isFixed d = .ok answer := by
  obtain ⟨row, here, least, most⟩ := h
  have ends := bound_literal here (wellFormed.integer _ row here) least most
  simp [Variable.isFixed, Variable.lower, Variable.upper, ends, bind, Except.bind, pure,
    Except.pure]

end Domains.Binary

/-! ## Precedences -/

namespace Precedence

variable {p : Precedence} {a : Assignment} {s s₀ : Store}

/-- A precedence holds if the intervals stand in the order that belongs to the literal. -/
theorem holds_iff_precedes {value : Bool}
    (known : a.value (.literal p.before) = if value then 1 else 0) :
    p.Holds a ↔ (a.interval (p.earlier value)).Precedes (a.interval (p.later value)) := by
  unfold Holds Assignment.holds
  rw [known]
  cases value <;> simp [earlier, later]

/-- Enforcing an order in which the assignment puts two intervals keeps the assignment. -/
theorem returns_enforce {earlier later : IntervalId} {v w : Interval} (keeps : s₀.Keeps a s)
    (row : s₀.domains.interval earlier = .ok v) (row' : s₀.domains.interval later = .ok w)
    (precedes : (a.interval earlier).Precedes (a.interval later)) :
    Returns (enforce earlier later) s fun _ s' => s₀.Keeps a s' := by
  obtain ⟨v', here, -⟩ := keeps.narrows.interval _ v row
  refine returns_inspect_bind here (returns_when (Q := fun s' => s₀.Keeps a s') (fun present => ?_)
    keeps fun t keeps => ?_)
  · refine returns_tighten keeps row' fun start length placed => ?_
    obtain ⟨start', length', placed', inside⟩ :=
      (keeps.admits.interval _ v' here).exists_placed present
    rw [placed, placed'] at precedes
    have : start' + length' ≤ start := precedes
    have := inside.endMin_le
    simp only [Bound.Keeps]
    omega
  · obtain ⟨w', there, -⟩ := keeps.narrows.interval _ w row'
    refine returns_inspect_bind there ?_
    split
    · rename_i present
      refine returns_tighten keeps row fun start length placed => ?_
      obtain ⟨start', length', placed', inside⟩ :=
        (keeps.admits.interval _ w' there).exists_placed present
      rw [placed, placed'] at precedes
      have : start + length ≤ start' := precedes
      have := inside.le_startMax
      simp only [Bound.Keeps]
      omega
    · exact returns_pure keeps

section Run

variable {v w : Interval} (keeps : s₀.Keeps a s) (binary : s₀.domains.Binary p.before)
  (row : s₀.domains.interval p.first = .ok v) (row' : s₀.domains.interval p.second = .ok w)
  (satisfied : p.Holds a)
include keeps binary row row' satisfied

/-- The literal gets no other truth value than it has in the assignment. -/
theorem returns_decideOrder : Returns p.decideOrder s fun _ s' => s₀.Keeps a s' := by
  obtain ⟨v', here, -⟩ := keeps.narrows.interval _ v row
  obtain ⟨w', there, -⟩ := keeps.narrows.interval _ w row'
  refine returns_inspect_bind here (returns_inspect_bind there ?_)
  have decide (value : Bool) (holds : a.value (.literal p.before) = if value then 1 else 0) :
      Returns (assign p.before value) s fun _ s' => s₀.Keeps a s' :=
    returns_change_of_keeps keeps (fun _ _ wellFormed => Domains.evolves_of_assign wellFormed)
      ((binary.mono keeps.narrows).exists_assign keeps.wellFormed keeps.admits holds)
  split
  swap
  · exact returns_pure keeps
  rename_i present
  rw [Bool.and_eq_true] at present
  obtain ⟨start, length, placed, inside⟩ :=
    (keeps.admits.interval _ v' here).exists_placed present.1
  obtain ⟨start', length', placed', inside'⟩ :=
    (keeps.admits.interval _ w' there).exists_placed present.2
  obtain ⟨value, known⟩ := (binary.mono keeps.narrows).exists_value keeps.admits
  have order := (holds_iff_precedes known).1 satisfied
  obtain ⟨h1, h2, h3, h4, h5, h6⟩ := inside
  obtain ⟨g1, g2, g3, g4, g5, g6⟩ := inside'
  split
  · cases value with
    | false => exact decide false known
    | true =>
      simp only [earlier, later, if_true, placed, placed', IntervalValue.Precedes] at order
      omega
  split
  · cases value with
    | true => exact decide true known
    | false =>
      simp only [earlier, later, Bool.false_eq_true, if_false, placed, placed',
        IntervalValue.Precedes] at order
      omega
  · exact returns_pure keeps

/-- The order that is enforced is that of the assignment. -/
theorem returns_enforceOrder : Returns p.enforceOrder s fun _ s' => s₀.Keeps a s' := by
  have here := binary.mono keeps.narrows
  have precedes (value : Bool) (known : s.domains.Decides p.before value) :
      (a.interval (p.earlier value)).Precedes (a.interval (p.later value)) :=
    (holds_iff_precedes (here.value_of_decides keeps.wellFormed keeps.admits known)).1 satisfied
  obtain ⟨answer, asked⟩ := here.exists_answer keeps.wellFormed true
  refine returns_inspect_bind (a := answer) asked ?_
  cases answer with
  | true => exact returns_enforce keeps row row' (precedes true asked)
  | false =>
    obtain ⟨answer, asked⟩ := here.exists_answer keeps.wellFormed false
    refine returns_inspect_bind (a := answer) asked ?_
    cases answer with
    | true => exact returns_enforce keeps row' row (precedes false asked)
    | false => exact returns_pure keeps

omit satisfied in
/-- Retiring changes no domain. -/
theorem returns_retire {context : Context} (inside : context.activity.index < s.cells.values.size) :
    Returns (p.retire context) s fun _ s' => s'.domains.Admits a := by
  obtain ⟨v', here, -⟩ := keeps.narrows.interval _ v row
  obtain ⟨w', there, -⟩ := keeps.narrows.interval _ w row'
  obtain ⟨fixed, known⟩ := (binary.mono keeps.narrows).exists_isFixed keeps.wellFormed
  refine returns_inspect_bind here ?_
  split
  swap
  · exact returns_pure keeps.admits
  refine returns_inspect_bind there ?_
  split
  swap
  · exact returns_pure keeps.admits
  refine returns_inspect_bind known ?_
  split
  · exact returns_writeCell inside fun _ _ => keeps.admits
  · exact returns_pure keeps.admits

end Run

/-- A run succeeds and keeps the assignment. -/
theorem exists_run {v w : Interval} (context : Context) (wellFormed : s.domains.WellFormed)
    (admits : s.domains.Admits a) (binary : s.domains.Binary p.before)
    (row : s.domains.interval p.first = .ok v) (row' : s.domains.interval p.second = .ok w)
    (satisfied : p.Holds a) (inside : context.activity.index < s.cells.values.size) :
    ∃ p' s', (Propagator.run context p).run s = .ok ((p', .ok ()), s') ∧ s'.domains.Admits a := by
  have propagated : Returns (p.propagate context) s fun _ s' => s'.domains.Admits a := by
    have start : s.Keeps a s := .refl wellFormed admits
    have void : Returns p.isVoid s fun _ s' => s' = s := by
      refine returns_inspect_bind row ?_
      split
      · exact returns_pure rfl
      · exact returns_inspect_bind row' (returns_pure rfl)
    refine returns_bind void fun void t same => ?_
    subst same
    split
    · exact returns_writeCell inside fun _ _ => admits
    refine returns_bind (returns_decideOrder start binary row row' satisfied) fun _ t keeps => ?_
    refine returns_bind (returns_enforceOrder keeps binary row row' satisfied) fun _ u keeps => ?_
    exact returns_retire keeps binary row row' (by rw [keeps.cells]; exact inside)
  obtain ⟨_, s', ran, kept⟩ := propagated
  exact ⟨p, s', run_bind_eq_ok_iff.2 ⟨_, s', ran, rfl⟩, kept⟩

end Precedence

/-! ## All calls of a run -/

namespace NoOverlap

/-- The propagator is one of those of the constraint with the given literals of its pairs. -/
def Has (k : NoOverlap) (literals : List Literal) : Rule → Prop
  | .machine m => m.intervals.toList = k.intervals
  | .precedence p => ((p.first, p.second), p.before) ∈ (pairs k.intervals).zip literals
  | _ => False

/-- The assignment puts any two intervals that take place in the order that the literal of the pair
states. -/
def Sequenced (k : NoOverlap) (literals : List Literal) (a : Assignment) : Prop :=
  List.Forall₂ (fun pair l => Precedence.Holds ⟨pair.1, pair.2, l⟩ a) (pairs k.intervals) literals

theorem pairwise_of_forall_pairs {α : Type} {R : α → α → Prop} {l : List α}
    (h : ∀ pair ∈ pairs l, R pair.1 pair.2) : l.Pairwise R := by
  induction l with
  | nil => exact List.Pairwise.nil
  | cons x rest ih =>
    refine List.pairwise_cons.2 ⟨fun y mem => ?_, ih fun pair mem => ?_⟩
    · exact h (x, y) (List.mem_append_left _ (List.mem_map.2 ⟨y, mem, rfl⟩))
    · exact h pair (List.mem_append_right _ mem)

variable {k : NoOverlap} {literals : List Literal} {a : Assignment}

/-- An assignment that puts every pair in some order satisfies the constraint. -/
theorem Sequenced.holds (h : k.Sequenced literals a) : k.Holds a := by
  refine pairwise_of_forall_pairs fun pair mem => ?_
  obtain ⟨i, inside, rfl⟩ := List.mem_iff_getElem.1 mem
  have order := List.Forall₂.get h inside (h.length_eq ▸ inside)
  unfold Precedence.Holds at order
  split at order
  · exact .inl order
  · exact .inr order

/-- Whenever a propagator of a no-overlap constraint is called, the call succeeds and keeps every
assignment within the domains that sequences the intervals as the literals state. -/
theorem exists_call_of_sequenced {f : Engine Rule} {p : PropagatorId} {q : Rule} (visited : f.Visited)
    (row : f.propagators.get? p.index = some q) (has : k.Has literals q)
    (few : k.intervals.length < 2 ^ 30)
    (known : ∀ i ∈ k.intervals, i.index < f.domains.intervals.size)
    (binary : ∀ x, q = .precedence x → f.domains.Binary x.before) (admits : f.domains.Admits a)
    (sequenced : k.Sequenced literals a) :
    ∃ f', f.call p = .ok (.ok (), f') ∧ f'.domains.Admits a := by
  obtain ⟨sane, covers⟩ := Guarantee.covers_of_visited Rule.family visited
  obtain ⟨activity, tracked⟩ := covers p q row
  have wellFormed := sane.wellFormed_now
  have inside : activity.index < f.store.cells.values.size :=
    sane.owned_lt p activity (by rw [tracked.owned_eq]; exact List.mem_cons_self)
  cases q with
  | machine m =>
    obtain ⟨m', n, same, fits, -, -⟩ := tracked.invariant_now (Rule.family.lawful _) sane
    cases same
    have same : m.intervals.toList = k.intervals := has
    rw [← same] at few
    obtain ⟨m', u, ran, kept⟩ := Machine.exists_run ⟨p, activity⟩ few
      (same ▸ sequenced.holds) wellFormed admits fits inside
    exact ⟨_, Engine.call_of_run tracked.here row (Rule.lift_of_run ran), kept⟩
  | precedence x =>
    have listed : ((x.first, x.second), x.before) ∈ (pairs k.intervals).zip literals := has
    obtain ⟨first, second⟩ := mem_of_mem_pairs (List.of_mem_zip listed).1
    obtain ⟨v, row'⟩ := Table.exists_get? (known _ first)
    obtain ⟨w, row''⟩ := Table.exists_get? (known _ second)
    obtain ⟨x', u, ran, kept⟩ := Precedence.exists_run ⟨p, activity⟩ wellFormed admits
      (binary x rfl) (Domains.interval_eq_ok_iff.2 row') (Domains.interval_eq_ok_iff.2 row'')
      ((List.forall₂_iff_zip.1 sequenced).2 listed) inside
    exact ⟨_, Engine.call_of_run tracked.here row (Rule.lift_of_run ran), kept⟩
  | _ => exact has.elim

/-- The engine on which the machine over the pair of intervals is called for the first time. -/
def pairCalled : Engine Rule :=
  (Operation.post (.machine pairConstraint.intervals)).called
    (pairStart.follow [.newInteger 0 1]).solver

/-- The second interval starts at `2`, and the first one after it. -/
def pairAssignment : Assignment :=
  ⟨fun _ => 0, fun i => if i.index = 0 then .placed 7 5 else .placed 2 5⟩

theorem sequenced_pairAssignment : pairConstraint.Sequenced [⟨⟨0⟩, true⟩] pairAssignment :=
  .cons (show (2 : Int) + 5 ≤ 7 by decide) .nil

theorem exists_call_of_sequenced_pair :
    ∃ f', pairCalled.call ⟨0⟩ = .ok (.ok (), f') ∧ f'.domains.Admits pairAssignment := by
  have called : (((Operation.post (.machine pairConstraint.intervals)).caller?
      (pairStart.follow [.newInteger 0 1]).solver).map Prod.fst, pairCalled.propagators.get? 0,
      pairCalled.domains.intervals.size, decide (pairCalled.domains.Admits pairAssignment),
      decide ((Operation.post (.machine pairConstraint.intervals)).Valid
        (pairStart.follow [.newInteger 0 1]).solver)) =
        (some ⟨0⟩, some (.machine ((Machine.blueprint pairConstraint.intervals).build ⟨0⟩ ⟨1⟩)), 2,
          true, true) := by cbv
  simp only [Prod.mk.injEq, decide_eq_true_eq] at called
  obtain ⟨first, row, size, admits, valid⟩ := called
  have accessible : Accessible (pairStart.follow [.newInteger 0 1]) :=
    ((reachable_reach _).trans (runs_follow _ _)).freeRuns
  exact exists_call_of_sequenced (k := pairConstraint) (p := ⟨0⟩)
    (.call accessible valid (Operation.calls_of_caller? first)) row rfl (by decide)
    (fun i mem => by
      rw [size]
      revert i
      decide)
    (fun x eq => by cases eq) admits sequenced_pairAssignment

end NoOverlap

end Scheduling
