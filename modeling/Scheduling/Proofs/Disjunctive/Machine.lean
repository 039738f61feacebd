import Scheduling.Proofs.Disjunctive.Overload
import Scheduling.Proofs.Disjunctive.Placement
import Scheduling.Proofs.Posting

/-!
# The guarantee of a machine

No two intervals that are placed overlap. A run that succeeds has checked this by the overload rule
on the active intervals, and intervals leave the active set only when they are absent.

Results:
* `Machine.separated_of_filterOn`: a pass over the timeline that succeeds separates the active
  intervals.
* `Machine.Fits`: how the active set and the domains fit together.
* `Machine.guarantee`, `Machine.lawful`: the guarantee, and that a machine gives it.
-/

namespace Scheduling

open Propagation

namespace Machine

/-! ## Tasks -/

/-- The task of the interval with a number; absent intervals have none. -/
def taskOf (m : Machine) (dir : Direction) (d : Domains) (index : Nat) : Option MachineTask :=
  match m.intervals.get? index with
  | none => none
  | some i =>
    match d.interval i with
    | .ok v => task? dir i v
    | .error _ => none

theorem tasks_of_exec {m : Machine} {dir : Direction} {members : List Nat} {s s' : Store}
    {r : Except Inconsistency (List MachineTask)}
    (ran : (members.filterMapM fun index => do
        let i ← m.intervals.read index
        return task? dir i (← interval i) : Propagation (List MachineTask)).exec s = .ok (r, s')) :
    s' = s ∧ r = .ok (members.filterMap (m.taskOf dir s.domains)) := by
  induction members generalizing r s' with
  | nil =>
    cases ran
    exact ⟨rfl, rfl⟩
  | cons k members ih =>
    rw [List.filterMapM_cons] at ran
    have single {found : Except Inconsistency (Option MachineTask)} {t : Store}
        (ran : (do
          let i ← m.intervals.read k
          return task? dir i (← interval i) : Propagation (Option MachineTask)).exec s =
            .ok (found, t)) : t = s ∧ found = .ok (m.taskOf dir s.domains k) := by
      obtain ⟨i, read, ran⟩ := exec_liftM_bind_eq_ok_iff.1 ran
      obtain ⟨v, row, ran⟩ := exec_inspect_bind_eq_ok_iff.1 ran
      cases ran
      simp [taskOf, Table.read_eq_ok_iff.1 read, row]
    rcases exec_bind_eq_ok_iff.1 ran with ⟨found, t, first, rest⟩ | ⟨cause, first, -⟩
    · obtain ⟨rfl, eq⟩ := single first
      cases eq
      cases known : m.taskOf dir t.domains k with
      | none =>
        rw [known] at rest
        simpa [known] using ih rest
      | some task =>
        rw [known] at rest
        rcases exec_bind_eq_ok_iff.1 rest with ⟨more, t', others, last⟩ | ⟨cause, others, -⟩
        · obtain ⟨rfl, eq⟩ := ih others
          cases eq
          cases last
          simp [known]
        · cases (ih others).2
    · cases (single first).2

theorem tasks_spec {m : Machine} {dir : Direction} {n : Nat} {s s' : Store}
    {r : Except Inconsistency (List MachineTask)}
    (size : s.cells.values.get? m.active.size.index = some (n : Int))
    (ran : (m.tasks dir).exec s = .ok (r, s')) :
    s' = s ∧ r = .ok ((m.active.elements.toList.take n).filterMap (m.taskOf dir s.domains)) := by
  rw [tasks, exec_bind, exec_get] at ran
  obtain ⟨members, listed, ran⟩ := exec_liftM_bind_eq_ok_iff.1 ran
  rw [SparseSet.members_eq_ok size] at listed
  cases listed
  exact tasks_of_exec ran

/-- Two tasks whose times are known and that both execute at some time. -/
def Collide (x y : MachineTask) : Prop :=
  x.startMin + x.duration = x.endMax ∧ y.startMin + y.duration = y.endMax ∧
    x.endMax < Width.w64.greatest ∧ y.endMax < Width.w64.greatest ∧
    ∃ time, x.startMin ≤ time ∧ time < x.endMax ∧ y.startMin ≤ time ∧ time < y.endMax

theorem Collide.symm {x y : MachineTask} (h : Collide x y) : Collide y x := by
  obtain ⟨first, second, top, top', time, a, b, c, d⟩ := h
  exact ⟨second, first, top', top, time, c, d, a, b⟩

/-- Tasks among which the filter finds no conflict do not collide. -/
theorem pairwise_of_filter {tasks : List MachineTask} {verdict : Verdict}
    {filtered : Tasks tasks.length} (durations : ∀ x ∈ tasks, 0 ≤ x.duration)
    (ran : (toTasks tasks).filter = .ok (verdict, filtered)) (feasible : verdict ≠ .infeasible) :
    tasks.Pairwise fun x y => ¬ Collide x y := by
  refine List.pairwise_iff_getElem.2 fun i j inside inside' lt => ?_
  have apart := Tasks.disjoint_of_filter (i := ⟨i, inside⟩) (j := ⟨j, inside'⟩)
    (fun k => by simpa [toTasks] using durations _ (List.getElem_mem k.isLt)) ran feasible
    (by simp; omega)
  simpa [Tasks.Collide, Collide, toTasks] using apart

/-- A placed interval has the task that executes as it does. -/
theorem exists_taskOf {m : Machine} {d : Domains} (wellFormed : d.WellFormed) {k : Nat}
    {i : IntervalId} (here : m.intervals.get? k = some i) {start stop : Int}
    (placed : d.Places i start stop) : ∃ x, m.taskOf .forward d k = some x ∧
      x.startMin = start ∧ x.endMax = stop ∧ x.startMin + x.duration = x.endMax ∧
      x.endMax < Width.w64.greatest := by
  obtain ⟨v, row, present, first, first', last, last'⟩ := placed
  have settled := wellFormed.interval i v row
  obtain ⟨length, -⟩ := settled.length_of_isFixed (by simp [Bounds.isFixed]; omega)
  have top := settled.le_horizon
  simp only [Interval.isPresent, beq_iff_eq] at present
  refine ⟨⟨i, false, v.startMin, v.lengthMin, v.endMax⟩, ?_, first, last', ?_, ?_⟩
  · simp [taskOf, here, row, task?, Interval.isAbsent, Interval.isOptional, present,
      Direction.earliestStart, Direction.latestEnd]
  · simp only
    omega
  · simp only [horizon, Width.greatest] at *
    omega

theorem duration_nonneg {m : Machine} {dir : Direction} {d : Domains} (wellFormed : d.WellFormed)
    {k : Nat} {x : MachineTask} (found : m.taskOf dir d k = some x) : 0 ≤ x.duration := by
  unfold taskOf at found
  split at found
  · cases found
  split at found
  · rename_i v row
    unfold task? at found
    split at found
    · cases found
    · cases found
      exact (wellFormed.interval _ v row).length_nonneg
  · cases found

/-- A pass over the timeline that succeeds finds the active intervals separated. -/
theorem separated_of_filterOn {m : Machine} {n : Nat} {s s' : Store}
    (wellFormed : s.domains.WellFormed)
    (known : s.cells.values.get? m.active.size.index = some (n : Int))
    (ran : (m.filterOn .forward).exec s = .ok (.ok (), s')) {k l : Nat} {i j : IntervalId}
    (here : m.intervals.get? k = some i) (there : m.intervals.get? l = some j)
    (has : m.active.Has n k) (has' : m.active.Has n l) (differs : k ≠ l) :
    s.domains.Separated i j := by
  rcases exec_bind_eq_ok_iff.1 ran with ⟨tasks, t, listed, rest⟩ | ⟨cause, -, impossible⟩
  swap
  · cases impossible
  obtain ⟨rfl, eq⟩ := tasks_spec known listed
  cases eq
  obtain ⟨⟨verdict, filtered⟩, filtering, rest⟩ := exec_liftM_bind_eq_ok_iff.1 rest
  have feasible : verdict ≠ .infeasible := by
    rintro rfl
    cases rest
  have apart := pairwise_of_filter (fun x mem => by
    obtain ⟨k, -, found⟩ := List.mem_filterMap.1 mem
    exact duration_nonneg wellFormed found) filtering feasible
  rw [List.pairwise_filterMap] at apart
  have symm : Std.Symm fun k l => ∀ x, m.taskOf .forward t.domains k = some x →
      ∀ y, m.taskOf .forward t.domains l = some y → ¬ Collide x y :=
    ⟨fun _ _ apart x found y found' collide => apart y found' x found collide.symm⟩
  have apart := apart.forall (SparseSet.mem_take_iff.2 has) (SparseSet.mem_take_iff.2 has') differs
  intro start stop start' stop' placed placed' time executes
  obtain ⟨x, found, rfl, rfl, length, top⟩ := exists_taskOf wellFormed here placed
  obtain ⟨y, found', rfl, rfl, length', top'⟩ := exists_taskOf wellFormed there placed'
  exact apart x found y found' ⟨length, length', top, top', time, executes⟩

/-! ## The active set -/

/-- How the active set and the domains fit together: `n` intervals are active, and the others are
absent. -/
structure Fits (is : List IntervalId) (m : Machine) (d : Domains) (values : Table Int) (n : Nat) :
    Prop where
  intervals : m.intervals.toList = is
  known : ∀ i ∈ is, i.index < d.intervals.size
  valid : m.active.Valid m.intervals.size
  size : values.get? m.active.size.index = some (n : Int)
  le : n ≤ m.intervals.size
  shape : ∀ k i, m.intervals.get? k = some i → m.active.Has n k ∨ d.Lacks i

section Fits

variable {is : List IntervalId} {m : Machine} {d d' : Domains} {values values' : Table Int} {n : Nat}

/-- Narrower domains fit as well, as long as the cell is left alone. -/
theorem Fits.mono (h : Fits is m d values n) (narrows : d.Narrows d')
    (same : values'.get? m.active.size.index = values.get? m.active.size.index) :
    Fits is m d' values' n :=
  { h with
    known := fun i mem => Nat.lt_of_lt_of_le (h.known i mem) narrows.extends.intervals
    size := by rw [same, h.size]
    shape := fun k i here => (h.shape k i here).imp_right fun lacks => lacks.mono narrows }

/-- What holds of any two active intervals, and wherever one is absent, holds of any two. -/
theorem Fits.pairwise (h : Fits is m d values n) {R : IntervalId → IntervalId → Prop}
    (lacks : ∀ i j, d.Lacks i ∨ d.Lacks j → R i j)
    (active : ∀ k l i j, m.intervals.get? k = some i → m.intervals.get? l = some j →
      m.active.Has n k → m.active.Has n l → k ≠ l → R i j) : is.Pairwise R := by
  rw [← h.intervals]
  refine List.pairwise_iff_getElem.2 fun k l inside inside' lt => ?_
  have here (k : Nat) (inside : k < m.intervals.toList.length) :
      m.intervals.get? k = some m.intervals.toList[k] := by
    simp only [Table.get?, Table.toList, Array.length_toList] at inside ⊢
    simp [inside]
  rcases h.shape k _ (here k inside) with has | absent
  · rcases h.shape l _ (here l inside') with has' | absent
    · exact active k l _ _ (here k inside) (here l inside') has has' (by omega)
    · exact lacks _ _ (.inr absent)
  · exact lacks _ _ (.inl absent)

/-- Of any two intervals one is absent. -/
def Idle (is : List IntervalId) (d : Domains) : Prop :=
  is.Pairwise fun i j => d.Lacks i ∨ d.Lacks j

theorem Idle.mono (h : Idle is d) (narrows : d.Narrows d') : Idle is d' :=
  h.imp fun absent => absent.imp (fun lacks => lacks.mono narrows) fun lacks => lacks.mono narrows

theorem Idle.separated (h : Idle is d) : is.Pairwise d.Separated :=
  h.imp fun absent => Domains.separated_of_lacks absent

theorem Fits.idle (h : Fits is m d values n) (few : n < 2) : Idle is d := by
  refine h.pairwise (fun _ _ => id) fun k l i j _ _ ⟨p, lt, here⟩ ⟨p', lt', there⟩ differs => ?_
  obtain rfl : p = p' := by omega
  rw [here] at there
  cases there
  exact absurd rfl differs

end Fits

/-- After the walk the active intervals and the domains still fit together. -/
theorem fits_of_sweep {is : List IntervalId} {m : Machine} {d : Domains} {n : Nat}
    {before after : Cells} {active : SparseSet} (h : Fits is m d before.values n)
    (swept : SparseSet.sweep (fun index => do
        return (← d.interval (← m.intervals.read index)).isAbsent) n m.active before =
          .ok (active, after)) :
    active.size = m.active.size ∧ before.Evolves [m.active.size] after ∧ ∃ n', n' ≤ n ∧
      Fits is { m with active } d after.values n' ∧
      (∀ k i v, m.intervals.get? k = some i → active.Has n' k → d.interval i = .ok v →
        v.isAbsent = false) ∧
      ∀ k, n ≤ k → ∀ i, active.Has k i ↔ m.active.Has k i := by
  obtain ⟨valid, size, evolves, n', le, size', left, all, larger⟩ := SparseSet.sweep_spec h.valid
    h.size h.le (Nat.le_refl n) (fun j i above below => by omega) swept
  have looks {k : Nat} {i : IntervalId} {answer : Bool} (here : m.intervals.get? k = some i)
      (known : (do return (← d.interval (← m.intervals.read k)).isAbsent) = .ok answer) :
      ∃ v, d.interval i = .ok v ∧ v.isAbsent = answer := by
    obtain ⟨i', read, looked⟩ := bind_eq_ok_iff.1 known
    obtain ⟨v, row, last⟩ := bind_eq_ok_iff.1 looked
    rw [Table.read_eq_ok_iff.2 here] at read
    cases read
    exact ⟨v, row, by simpa [pure, Except.pure] using last⟩
  refine ⟨size, evolves, n', le, { h with
    valid := valid
    size := by rw [size]; exact size'
    le := Nat.le_trans le h.le
    shape := fun k i here => ?_ }, fun k i v here has row => ?_, larger⟩
  · rcases h.shape k i here with has | absent
    · rcases all k has with stays | gone
      · exact .inl ((left k).2 ⟨has, stays⟩)
      · exact .inr (looks here gone)
    · exact .inr absent
  · obtain ⟨w, row', there⟩ := looks here ((left k).1 has).2
    rw [row] at row'
    cases row'
    exact there

/-! ## The guarantee -/

/-- What is known about a machine: active set and domains fit together, and it is switched off only
when it has nothing to do. -/
def Standing (is : List IntervalId) (activity : CellId) (q : Rule) (d : Domains)
    (values : Table Int) : Prop :=
  ∃ m n, q = .machine m ∧ Fits is m d values n ∧ activity.index < values.size ∧
    (values.get? activity.index = some 0 → Idle is d)

/-- No two intervals that are placed overlap. -/
def guarantee (is : List IntervalId) : Guarantee where
  Accepts d := is.Pairwise d.Separated
  Invariant := Standing is
  Allowed _ _ := True
  Watches v event := ∃ i ∈ is, (Watch.interval i .anyInterval).Tells v event

variable {is : List IntervalId}

theorem Standing.mono {activity : CellId} {q : Rule} {d d' : Domains} {values values' : Table Int}
    (h : Standing is activity q d values) (narrows : d.Narrows d')
    (same : ∀ cell ∈ activity :: q.cells, values'.get? cell.index = values.get? cell.index) :
    Standing is activity q d' values' := by
  obtain ⟨m, n, rfl, fits, inside, off⟩ := h
  have activityCell := same activity (by simp)
  refine ⟨m, n, rfl, fits.mono narrows (same _ (by simp [Rule.cells, cells])), ?_, fun zero =>
    (off (by rw [← activityCell, zero])).mono narrows⟩
  obtain ⟨flag, known⟩ := Table.exists_get? inside
  rw [← activityCell] at known
  exact Table.lt_size_of_get? known

/-- What the propagation leaves: the machine still stands, and if it succeeds, no two placed
intervals overlap. -/
theorem standing_of_propagate {m : Machine} {context : Context} {u u' : Store} {n : Nat}
    {status : Status} (wellFormed : u.domains.WellFormed)
    (differs : context.activity ≠ m.active.size) (h : Fits is m u.domains u.cells.values n)
    (inside : context.activity.index < u.cells.values.size)
    (off : u.cells.values.get? context.activity.index = some 0 → Idle is u.domains)
    (ran : (m.propagate context).exec u = .ok (status, u')) :
    Standing is context.activity (.machine m) u'.domains u'.cells.values ∧
      u'.cells.values.get? m.active.size.index = u.cells.values.get? m.active.size.index ∧
      (status = .ok () → is.Pairwise u.domains.Separated) := by
  have evolves : u.Evolves [context.activity] u' :=
    (m.performs_propagate (by simp)).evolves u _ _ wellFormed ran
  have narrows := evolves.domains.narrows
  have same : u'.cells.values.get? m.active.size.index = u.cells.values.get? m.active.size.index :=
    evolves.cells.others m.active.size (by simpa using Ne.symm differs)
  rw [propagate, exec_bind, exec_get] at ran
  obtain ⟨length, counted, ran⟩ := exec_liftM_bind_eq_ok_iff.1 ran
  rw [SparseSet.length_eq_ok h.size] at counted
  cases counted
  split at ran
  · rename_i few
    have idle := h.idle few
    obtain ⟨-, domains, -, values⟩ := writeCell_spec ran
    refine ⟨⟨m, n, rfl, h.mono narrows same, ?_, fun _ => idle.mono narrows⟩, same,
      fun _ => idle.separated⟩
    rw [values, Table.size_set]
    exact inside
  · have quiet : Evolves [] (do m.filterOn .forward; m.filterOn .mirrored) :=
      (performs_bind (m.performs_filterOn _) fun _ => m.performs_filterOn _).evolves
    have values : u'.cells.values = u.cells.values :=
      (quiet u _ _ wellFormed ran).cells.values_eq
    refine ⟨⟨m, n, rfl, h.mono narrows same, by rw [values]; exact inside, fun zero =>
      (off (by rw [← values, zero])).mono narrows⟩, same, fun ok => ?_⟩
    rcases exec_bind_eq_ok_iff.1 ran with ⟨_, t, forward, -⟩ | ⟨cause, -, failed⟩
    · exact h.pairwise (fun _ _ => Domains.separated_of_lacks) fun k l i j here there has has' =>
        separated_of_filterOn wellFormed h.size forward here there has has'
    · simp [ok] at failed

/-- A run keeps what is known about a machine, also for the states of earlier checkpoints. -/
theorem standing_of_run {context : Context} {q q' : Rule} {status : Status} {st st' : Store}
    (ran : (Propagator.run context q).run st = .ok ((q', status), st'))
    (wellFormed : st.domains.WellFormed) (nodup : (context.activity :: q.cells).Nodup)
    (standing : Standing is context.activity q st.domains st.cells.values) :
    Standing is context.activity q' st'.domains st'.cells.values ∧
      q'.sizes = q.sizes ∧ q.Older st.cells.values st'.cells.values ∧
      (∀ d values, Standing is context.activity q d values → q.Older values st.cells.values →
        Standing is context.activity q' d values) ∧
      (status = .ok () → is.Pairwise st.domains.Separated) := by
  obtain ⟨m, n, rfl, fits, inside, off⟩ := standing
  obtain ⟨m', rfl, lifted⟩ := Rule.lift_spec ran
  obtain ⟨length, t, counted, dropped, propagated⟩ := run_spec lifted
  obtain ⟨active, cells, swept, rfl, rfl⟩ := dropAbsent_spec dropped
  rw [SparseSet.length_eq_ok fits.size] at counted
  cases counted
  obtain ⟨size, evolves, n', le, fits', -, larger⟩ := fits_of_sweep fits swept
  have differs : context.activity ≠ m.active.size := by
    simpa [Rule.cells, Machine.cells] using nodup
  have activityCell := evolves.others context.activity (by simpa using differs)
  obtain ⟨standing, kept, accepts⟩ := standing_of_propagate (u := { st with cells }) wellFormed
    (by simpa [size] using differs) fits' (by rw [evolves.size]; exact inside)
    (fun zero => off (activityCell ▸ zero)) propagated
  refine ⟨standing, by simp [Rule.sizes, size], fun cell mem => ?_, ?_, accepts⟩
  · simp only [Rule.sizes, List.mem_singleton] at mem
    subst mem
    rw [← size, kept, fits'.size, size, fits.size]
    simpa using le
  · rintro d values ⟨m₀, n₀, same, fits₀, inside₀, off₀⟩ older
    cases same
    have more := older m.active.size (by simp [Rule.sizes])
    rw [fits.size, fits₀.size] at more
    have more : n ≤ n₀ := by simpa using more
    refine ⟨_, n₀, rfl, { fits₀ with
      valid := fits'.valid
      size := by rw [size]; exact fits₀.size
      shape := fun k i here => ?_ }, inside₀, off₀⟩
    rw [larger n₀ more k]
    exact fits₀.shape k i here

/-- A machine gives its guarantee. -/
theorem lawful (is : List IntervalId) : (guarantee is).Lawful where
  invariant_mono standing _ _ := standing.mono
  run ran wellFormed nodup standing _ := standing_of_run ran wellFormed nodup standing
  accepts_of_idle := by
    rintro activity q d values ⟨m, n, -, -, -, off⟩ - zero
    exact (off zero).separated
  accepts_or_watches := by
    rintro activity q d d' values events ⟨m, n, -, fits, -, -⟩ - - narrows reports accepts
    by_cases told : ∃ v event, (v, event) ∈ events ∧
        ∃ i ∈ is, (Watch.interval i .anyInterval).Tells v event
    · exact .inr told
    · refine .inl (List.Pairwise.imp_of_mem ?_ accepts)
      intro i j mem mem' separated
      refine (Domains.separated_or_reported narrows reports (fits.known i mem) (fits.known j mem')
        separated).resolve_right ?_
      rintro ⟨k, here, event, any, reported⟩
      refine told ⟨_, event, reported, k, ?_, rfl, any⟩
      rcases here with rfl | rfl
      · exact mem
      · exact mem'
  accepts_of_narrows _ wellFormed' narrows accepts :=
    accepts.imp fun separated => separated.of_narrows wellFormed' narrows

end Machine

end Scheduling
