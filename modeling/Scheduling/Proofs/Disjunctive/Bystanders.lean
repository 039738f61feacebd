import Scheduling.Proofs.Disjunctive.Passes
import Scheduling.Proofs.Disjunctive.Separation
import Scheduling.Proofs.Termination

/-!
# Optional intervals push no other

An optional interval takes part in a machine with an end that nothing reaches. What the machine finds
about the others is what it would find without it, and so are the failures; and what it finds about
an optional interval does not depend on the other optional ones.

Results:
* `Machine.perm_tasks`: the tasks of a machine are those of its intervals, in whatever order.
* `Machine.Bystanders`: some intervals of a machine have the same rows in two domains, and none of
  the others is present; a pass keeps it, `Machine.Selects.pass`.
* `Machine.Bystanders.exists_run`: a machine that runs over all intervals, and one that runs without
  the bystanders.
* `Machine.optionals_push_none`: calls of a machine, and of new ones without optional intervals.
-/

namespace Scheduling

open Propagation

namespace Machine

variable {dir : Direction} {is : List IntervalId} {m m' : Machine} {d d' : Domains}
  {values values' : Table Int} {n n' : Nat} {chosen : IntervalId → Bool}

/-! ## The tasks of a machine -/

/-- The task of an interval on a timeline; absent intervals have none. -/
def taskAt (dir : Direction) (d : Domains) (i : IntervalId) : Option MachineTask :=
  match d.interval i with
  | .ok v => task? dir i v
  | .error _ => none

theorem taskOf_eq_bind (k : Nat) : m.taskOf dir d k = (m.intervals.get? k).bind (taskAt dir d) := by
  unfold taskOf taskAt
  cases m.intervals.get? k <;> rfl

/-- The tasks of a machine are those of its intervals, in the order in which the active set has
them. -/
theorem perm_tasks (dir : Direction) (fits : Fits is m d values n) :
    ((m.active.elements.toList.take n).filterMap (m.taskOf dir d)).Perm
      (is.filterMap (taskAt dir d)) := by
  have nodup := fits.valid.nodup_take m.active.elements.toList.length
  rw [List.take_length] at nodup
  -- What the active set has dropped is absent, and has no task.
  have dropped : (m.active.elements.toList.drop n).filterMap (m.taskOf dir d) = [] := by
    refine List.filterMap_eq_nil_iff.2 fun k mem => ?_
    rw [taskOf_eq_bind]
    cases here : m.intervals.get? k with
    | none => rfl
    | some i =>
      have out : ¬ m.active.Has n k := fun has =>
        List.disjoint_take_drop nodup (Nat.le_refl n) (SparseSet.mem_take_iff.2 has) mem
      obtain ⟨v, row, absent⟩ := (fits.shape k i here).resolve_left out
      simp [taskAt, row, task?, absent]
  have listed : (List.range m.intervals.size).filterMap (m.taskOf dir d) =
      is.filterMap (taskAt dir d) := by
    rw [← fits.intervals, ← List.map_get_finRange m.intervals.toList, List.filterMap_map,
      show m.intervals.size = m.intervals.toList.length by simp [Table.size, Table.toList],
      ← List.map_coe_finRange_eq_range, List.filterMap_map]
    refine List.filterMap_congr fun k _ => ?_
    have here : m.intervals.get? k = some (m.intervals.toList.get k) := by
      rw [← fits.getElem?_eq, ← fits.intervals]
      exact List.getElem?_eq_getElem k.isLt
    simp [taskOf_eq_bind, here]
  rw [← listed, ← List.append_nil ((m.active.elements.toList.take n).filterMap _), ← dropped,
    ← List.filterMap_append, List.take_append_drop]
  exact fits.valid.perm_range.filterMap _

/-! ## Bystanders -/

/-- The listed intervals that are not chosen are bystanders, of which none is present in the first
domains; all other intervals have the same rows in both domains. -/
structure Bystanders (chosen : IntervalId → Bool) (is : List IntervalId) (d d' : Domains) :
    Prop where
  same : ∀ i, (i ∈ is → chosen i = true) → d'.interval i = d.interval i
  aside : ∀ i ∈ is, chosen i = false → ∀ v, d.interval i = .ok v → v.isPresent = false

theorem reads_of_taskAt {i : IntervalId} {x : MachineTask} (found : taskAt dir d i = some x) :
    x.interval = i ∧ ∃ v, Reads dir d x v := by
  unfold taskAt at found
  split at found
  · rename_i v row
    exact (reads_of_task? row found).imp_right fun reads => ⟨v, reads⟩
  · cases found

/-- A task that reads an interval that is not present is that of an optional interval. -/
theorem Reads.optional {x : MachineTask} {v : Interval} (h : Reads dir d x v)
    (aside : v.isPresent = false) : x.isOptional = true ∧ x.endMax = optionalEnd := by
  have optional : v.isOptional = true := by
    have there := h.isAbsent
    obtain ⟨b, presence⟩ := v
    cases presence <;> simp_all [Interval.isPresent, Interval.isAbsent, Interval.isOptional]
  rw [h.isOptional, h.endMax, optional]
  exact ⟨rfl, rfl⟩

/-- The task is that of a bystander. -/
structure OfBystander (chosen : IntervalId → Bool) (is : List IntervalId) (d : Domains)
    (x : MachineTask) : Prop where
  listed : x.interval ∈ is
  left : chosen x.interval = false
  isOptional : x.isOptional = true
  endMax : x.endMax = optionalEnd
  aside : ∀ v, d.interval x.interval = .ok v → v.isPresent = false

/-- Some tasks are a selection of others; those that are not selected are of bystanders. -/
structure Selects (chosen : IntervalId → Bool) (is : List IntervalId) (d : Domains)
    (tasks part : List MachineTask) (e : Fin part.length ↪ Fin tasks.length) : Prop where
  same : ∀ k, tasks.get (e k) = part.get k
  taken : ∀ x ∈ part, chosen x.interval = true
  aside : ∀ k, k ∉ Finset.univ.map e → OfBystander chosen is d (tasks.get k)

/-- The tasks of a machine without the bystanders are a selection of those of the machine. -/
theorem Bystanders.exists_selects (h : Bystanders chosen is d d') (dir : Direction)
    (fits : Fits is m d values n) (fits' : Fits (is.filter chosen) m' d' values' n') :
    ∃ e, Selects chosen is d ((m.active.elements.toList.take n).filterMap (m.taskOf dir d))
      ((m'.active.elements.toList.take n').filterMap (m'.taskOf dir d')) e := by
  have same : (is.filter chosen).filterMap (taskAt dir d) =
      (is.filter chosen).filterMap (taskAt dir d') := by
    refine List.filterMap_congr fun i mem => ?_
    have chosen := (List.mem_filter.1 mem).2
    rw [taskAt, taskAt, h.same i fun _ => chosen]
  have perm := (perm_tasks dir fits).trans
    ((List.filter_append_perm chosen is).symm.filterMap (taskAt dir d))
  rw [List.filterMap_append, same] at perm
  have part := perm_tasks dir fits'
  obtain ⟨e, selected, -, out⟩ := exists_select_of_perm (perm.trans (part.symm.append_right _))
  refine ⟨e, selected, fun x mem => ?_, fun k outside => ?_⟩
  · obtain ⟨i, mem, found⟩ := List.mem_filterMap.1 (part.mem_iff.1 mem)
    rw [(reads_of_taskAt found).1]
    exact (List.mem_filter.1 mem).2
  · obtain ⟨i, mem, found⟩ := List.mem_filterMap.1 (out k outside)
    obtain ⟨rfl, w, reads⟩ := reads_of_taskAt found
    obtain ⟨listed, left⟩ := List.mem_filter.1 mem
    rw [Bool.not_eq_true'] at left
    have absent := h.aside _ listed left
    obtain ⟨optional, unlimited⟩ := reads.optional (absent w reads.row)
    exact ⟨listed, left, optional, unlimited, absent⟩

namespace Selects

variable {tasks part : List MachineTask} {e : Fin part.length ↪ Fin tasks.length}
  (h : Selects chosen is d tasks part e)
include h

/-- Bystanders can be left out of the rounds. -/
theorem filters {r : Option (Tasks tasks.length)} (moderate : (toTasks tasks).Moderate)
    (settled : (toTasks tasks).Filters r) : (toTasks part).Filters (r.map fun t => t.select e) := by
  have eq : toTasks part = (toTasks tasks).select e := by
    refine Tasks.eq_of_get (fun k => ?_) (fun k => ?_) fun k => ?_
    · rw [Tasks.startMin_select, toTasks_startMin, toTasks_startMin, h.same]
    · rw [Tasks.duration_select, toTasks_duration, toTasks_duration, h.same]
    · rw [Tasks.endMax_select, toTasks_endMax, toTasks_endMax, h.same]
  rw [eq]
  refine settled.select (P := fun t => t.Moderate ∧ ∀ k, k ∉ Finset.univ.map e →
      t.endMax.get k = optionalEnd)
    (fun t ⟨moderate, unlimited⟩ k aside => moderate.aloof (unlimited k aside))
    (fun t ⟨moderate, unlimited⟩ free k aside => (moderate.raised free).aloof (unlimited k aside))
    (fun t ⟨moderate, unlimited⟩ free => ⟨moderate.round free, fun k aside =>
      moderate.endMax_round free (unlimited k aside)⟩) ⟨moderate, fun k outside => ?_⟩
  rw [toTasks_endMax]
  exact (h.aside k outside).endMax

theorem finding_eq (t : Tasks tasks.length) (k : Fin part.length) :
    finding dir (t.select e) k = finding dir t (e k) := by
  funext v
  rw [finding, finding, Tasks.startMin_select, Tasks.endMax_select, h.same]

/-- What is selected are the tasks of the chosen intervals. -/
theorem mem_map_iff (k : Fin tasks.length) :
    k ∈ Finset.univ.map e ↔ chosen (tasks.get k).interval = true := by
  constructor
  · intro inside
    obtain ⟨k, -, rfl⟩ := Finset.mem_map.1 inside
    rw [h.same]
    exact h.taken _ (List.get_mem part k)
  · intro chosen_k
    by_contra outside
    rw [(h.aside k outside).left] at chosen_k
    cases chosen_k

/-- A row is left for every bystander, and it is still not present. -/
theorem exists_finding (dir : Direction) {k : Fin tasks.length} (outside : k ∉ Finset.univ.map e)
    (t : Tasks tasks.length) {v : Interval} (row : d.interval (tasks.get k).interval = .ok v) :
    ∃ w, finding dir t k v = some w ∧ w.isPresent = false := by
  have task := h.aside k outside
  exact exists_applied_of_not_isPresent task.isOptional (task.aside v row)

variable {d₁ d₁' : Domains} (bystanders : Bystanders chosen is d d')
include bystanders

theorem interval_eq (k : Fin part.length) :
    d'.interval (part.get k).interval = d.interval (tasks.get (e k)).interval := by
  rw [h.same, bystanders.same _ fun _ => h.taken _ (List.get_mem part k)]

/-- The same new rows for the tasks that are selected leave the bystanders aside. -/
theorem after {t : Tasks tasks.length}
    (rows : ∀ k, ∃ v w, d.interval (tasks.get k).interval = .ok v ∧ finding dir t k v = some w ∧
      d₁.interval (tasks.get k).interval = .ok w)
    (others : ∀ i, (∀ x ∈ tasks, x.interval ≠ i) → d₁.interval i = d.interval i)
    (rows' : ∀ k, ∃ v w, d'.interval (part.get k).interval = .ok v ∧
      finding dir (t.select e) k v = some w ∧ d₁'.interval (part.get k).interval = .ok w)
    (others' : ∀ i, (∀ x ∈ part, x.interval ≠ i) → d₁'.interval i = d'.interval i) :
    Bystanders chosen is d₁ d₁' where
  same i chosen_i := by
    by_cases task : ∃ x ∈ part, x.interval = i
    · obtain ⟨x, mem, rfl⟩ := task
      obtain ⟨k, rfl⟩ := List.mem_iff_get.1 mem
      obtain ⟨v, w, row, found, kept⟩ := rows (e k)
      obtain ⟨v', w', row', found', kept'⟩ := rows' k
      rw [h.interval_eq bystanders, row] at row'
      cases row'
      rw [h.finding_eq, found] at found'
      cases found'
      rw [kept', ← h.same, kept]
    · push Not at task
      rw [others' i task, others i, bystanders.same i chosen_i]
      rintro x mem rfl
      obtain ⟨k, rfl⟩ := List.mem_iff_get.1 mem
      by_cases inside : k ∈ Finset.univ.map e
      · obtain ⟨k, -, rfl⟩ := Finset.mem_map.1 inside
        exact task _ (List.get_mem part k) (by rw [h.same])
      · have left := h.aside k inside
        rw [left.left] at chosen_i
        cases chosen_i left.listed
  aside i listed left v row := by
    by_cases task : ∃ x ∈ tasks, x.interval = i
    · obtain ⟨x, mem, rfl⟩ := task
      obtain ⟨k, rfl⟩ := List.mem_iff_get.1 mem
      obtain ⟨u, w, row', found, kept⟩ := rows k
      rw [row] at kept
      cases kept
      have outside : k ∉ Finset.univ.map e := by
        rw [h.mem_map_iff, left]
        exact Bool.false_ne_true
      obtain ⟨w', found', absent⟩ := h.exists_finding dir outside t row'
      rw [found] at found'
      cases found'
      exact absent
    · push Not at task
      rw [others i task] at row
      exact bystanders.aside i listed left v row

/-- Two passes, of which the second one leaves the bystanders out, end in the same way. -/
theorem pass {status status' : Status} (moderate : (toTasks tasks).Moderate)
    (pass : Pass dir tasks d d₁ status) (pass' : Pass dir part d' d₁' status') :
    status' = status ∧ (status = .ok () → Bystanders chosen is d₁ d₁') := by
  cases pass with
  | infeasible settled =>
    have settled := h.filters moderate settled
    cases pass' with
    | infeasible => exact ⟨rfl, fun impossible => by cases impossible⟩
    | emptied settled' => cases settled.unique settled'
    | done settled' => cases settled.unique settled'
  | @emptied t settled k v row empty =>
    have settled := h.filters moderate settled
    have inside : k ∈ Finset.univ.map e := by
      by_contra outside
      obtain ⟨w, left, -⟩ := h.exists_finding dir outside t row
      rw [empty] at left
      cases left
    obtain ⟨k, -, rfl⟩ := Finset.mem_map.1 inside
    cases pass' with
    | infeasible settled' => cases settled.unique settled'
    | emptied => exact ⟨rfl, fun impossible => by cases impossible⟩
    | done settled' rows =>
      cases settled.unique settled'
      obtain ⟨w, u, row', found, -⟩ := rows k
      rw [h.interval_eq bystanders, row] at row'
      cases row'
      rw [h.finding_eq, empty] at found
      cases found
  | @done t settled rows others =>
    have settled := h.filters moderate settled
    cases pass' with
    | infeasible settled' => cases settled.unique settled'
    | @emptied _ settled' k v row empty =>
      cases settled.unique settled'
      obtain ⟨w, u, row', found, -⟩ := rows (e k)
      rw [← h.interval_eq bystanders, row] at row'
      cases row'
      rw [← h.finding_eq, empty] at found
      cases found
    | done settled' rows' others' =>
      cases settled.unique settled'
      exact ⟨rfl, fun _ => h.after bystanders rows others rows' others'⟩

end Selects

/-! ## Passes and runs -/

/-- The passes over the timeline in both directions. -/
def passes (m : Machine) : Propagation Unit := do
  m.filterOn .forward
  m.filterOn .mirrored

section Runs

variable {s u : Store} (few : is.length < 2 ^ 30) (wellFormed : s.domains.WellFormed)
  (wellFormed' : u.domains.WellFormed) (fits : Fits is m s.domains s.cells.values n)
  (fits' : Fits (is.filter chosen) m' u.domains u.cells.values n')
include few wellFormed wellFormed' fits fits'

/-- A pass over the timeline, and one that leaves the bystanders out. -/
theorem Bystanders.exists_filterOn (h : Bystanders chosen is s.domains u.domains)
    (dir : Direction) : ∃ status s' u', (m.filterOn dir).exec s = .ok (status, s') ∧
      (m'.filterOn dir).exec u = .ok (status, u') ∧
      (status = .ok () → Bystanders chosen is s'.domains u'.domains) := by
  obtain ⟨status, s', ran, ends⟩ := exists_pass dir few wellFormed fits
  obtain ⟨status', u', ran', ends'⟩ := exists_pass dir
    (Nat.lt_of_le_of_lt (List.length_filter_le ..) few) wellFormed' fits'
  obtain ⟨e, selects⟩ := h.exists_selects dir fits fits'
  obtain ⟨rfl, kept⟩ := selects.pass h (fits.moderate few wellFormed) ends ends'
  exact ⟨status', s', u', ran, ran', kept⟩

/-- The passes in both directions. -/
theorem Bystanders.exists_passes (h : Bystanders chosen is s.domains u.domains) :
    ∃ status s' u', (m.passes).exec s = .ok (status, s') ∧ (m'.passes).exec u = .ok (status, u') ∧
      (status = .ok () → Bystanders chosen is s'.domains u'.domains) := by
  obtain ⟨status, s₁, u₁, ran, ran', kept⟩ :=
    h.exists_filterOn few wellFormed wellFormed' fits fits' .forward
  cases status with
  | error cause =>
    exact ⟨_, s₁, u₁, exec_bind_eq_ok_iff.2 (.inr ⟨cause, ran, rfl⟩),
      exec_bind_eq_ok_iff.2 (.inr ⟨cause, ran', rfl⟩), fun impossible => by cases impossible⟩
  | ok =>
    have quiet (m : Machine) : Performs [] (m.filterOn .forward) := m.performs_filterOn _
    have first := (quiet m).evolves s _ s₁ wellFormed ran
    have first' := (quiet m').evolves u _ u₁ wellFormed' ran'
    obtain ⟨status, s₂, u₂, rest, rest', kept⟩ := (kept rfl).exists_filterOn few first.wellFormed
      first'.wellFormed (fits.mono first.domains.narrows (by rw [first.cells.values_eq]))
      (fits'.mono first'.domains.narrows (by rw [first'.cells.values_eq])) .mirrored
    exact ⟨status, s₂, u₂, exec_bind_eq_ok_iff.2 (.inl ⟨(), s₁, ran, rest⟩),
      exec_bind_eq_ok_iff.2 (.inl ⟨(), u₁, ran', rest'⟩), kept⟩

end Runs

/-- Every task can be completed by its latest end. -/
theorem Reads.completes {x : MachineTask} {v : Interval} (h : Reads dir d x v)
    (wellFormed : d.WellFormed) : x.startMin + x.duration ≤ x.endMax := by
  obtain ⟨-, short, -, early⟩ := h.within wellFormed
  have settled := wellFormed.interval _ v h.row
  have start_le := settled.start_le
  have startMax_le := settled.startMax_le
  rw [h.endMax]
  split
  · simp only [horizon, optionalEnd] at *
    omega
  · rw [h.startMin, h.duration]
    cases dir <;> simp only [Direction.earliestStart, Direction.latestEnd] <;> omega

/-- A single task is stable. -/
theorem stable_of_length_le (dir : Direction) {tasks : List MachineTask} (wellFormed : d.WellFormed)
    (single : tasks.length ≤ 1) (reads : ∀ x ∈ tasks, ∃ v, Reads dir d x v) :
    (toTasks tasks).Stable := by
  have same (i j : Fin tasks.length) : i = j := Fin.ext (by omega)
  have none (T : Finset (Fin tasks.length)) (i : Fin tasks.length) : T.erase i = ∅ := by
    refine Finset.eq_empty_of_forall_notMem fun j mem => ?_
    exact (Finset.mem_erase.1 mem).1 (same j i)
  refine ⟨fun i k _ => ?_, fun i k mem => ?_, fun i k mem => ?_⟩
  · obtain rfl := same i k
    obtain ⟨v, read⟩ := reads _ (List.get_mem tasks i)
    have sum_le (T : Finset (Fin tasks.length)) :
        ∑ j ∈ T, (toTasks tasks).duration.get j ≤ (tasks.get i).duration := by
      rw [← toTasks_duration, ← Finset.sum_singleton (toTasks tasks).duration.get i]
      refine Finset.sum_le_sum_of_subset_of_nonneg (fun j _ => Finset.mem_singleton.2 (same j i))
        fun j _ _ => ?_
      rw [same j i, toTasks_duration]
      exact (read.within wellFormed).1
    rw [toTasks_startMin, toTasks_endMax]
    exact Int.le_trans (Int.add_le_add_left (sum_le _) _) (read.completes wellFormed)
  · rw [none] at mem
    cases mem
  · rw [none] at mem
    cases mem

/-- Fewer than two intervals are left as they are. -/
theorem exec_passes_of_lt {s : Store} (few : is.length < 2 ^ 30) (wellFormed : s.domains.WellFormed)
    (fits : Fits is m s.domains s.cells.values n) (lt : n < 2) :
    m.passes.exec s = .ok (.ok (), s) := by
  have quiet (dir : Direction) : (m.filterOn dir).exec s = .ok (.ok (), s) := by
    have stable : (toTasks
        ((m.active.elements.toList.take n).filterMap (m.taskOf dir s.domains))).Stable := by
      refine stable_of_length_le dir wellFormed ?_ fun _ mem => exists_reads mem
      refine (List.length_filterMap_le _ _).trans ?_
      rw [List.length_take]
      omega
    have filtering := Tasks.filter_of_stable (fits.moderate few wellFormed).admissible.roomy stable
    have listing : Returns (m.tasks dir) s _ := returns_tasks fits
    obtain ⟨_, t, listed, rfl, rfl⟩ := listing
    exact exec_filterOn listed filtering
  exact exec_bind_eq_ok_iff.2 (.inl ⟨(), s, quiet .forward, quiet .mirrored⟩)

/-- What a propagation does to the domains, the two passes do. -/
theorem exists_propagate {s t : Store} {status : Status} (context : Context)
    (few : is.length < 2 ^ 30) (wellFormed : s.domains.WellFormed)
    (fits : Fits is m s.domains s.cells.values n)
    (inside : context.activity.index < s.cells.values.size)
    (ran : m.passes.exec s = .ok (status, t)) :
    ∃ s', (m.propagate context).exec s = .ok (status, s') ∧ s'.domains = t.domains := by
  have counted : (m.propagate context).exec s =
      (if n < 2 then setActive context false else m.passes).exec s := by
    rw [propagate, exec_bind, exec_get]
    show exec (liftM (m.active.length s.cells) >>= _) s = _
    rw [SparseSet.length_eq_ok fits.size]
    rfl
  rw [counted]
  split
  · rename_i lt
    rw [exec_passes_of_lt few wellFormed fits lt] at ran
    cases ran
    obtain ⟨_, s', off, same⟩ := returns_writeCell (s := s)
      (Q := fun _ s' => s'.domains = s.domains) inside (fun _ _ => rfl)
    exact ⟨s', off, same⟩
  · exact ⟨t, ran, rfl⟩

/-- A run is a walk that changes no domain, and a propagation. -/
theorem exists_walk {s : Store} (context : Context) (few : is.length < 2 ^ 30)
    (wellFormed : s.domains.WellFormed) (fits : Fits is m s.domains s.cells.values n)
    (inside : context.activity.index < s.cells.values.size) : ∃ active cells n',
      Fits is { m with active } s.domains cells.values n' ∧ ∀ status t,
        ({ m with active } : Machine).passes.exec { s with cells } = .ok (status, t) →
          ∃ k s', (run context m).run s = .ok ((k, status), s') ∧ s'.domains = t.domains := by
  obtain ⟨⟨active, cells⟩, swept⟩ := SparseSet.exists_sweep fits.valid fits.size fits.le
    (Nat.le_refl n) fun _ => fits.exists_isAbsent
  obtain ⟨-, evolves, n', -, fits', -, -⟩ := fits_of_sweep fits swept
  refine ⟨active, cells, n', fits', fun status t ran => ?_⟩
  obtain ⟨s', propagated, same⟩ := exists_propagate (s := { s with cells }) context few wellFormed
    fits' (by rw [evolves.size]; exact inside) ran
  exact ⟨_, s', run_of_sweep fits swept propagated, same⟩

/-- A machine that runs over all intervals, and one that runs without the bystanders. -/
theorem Bystanders.exists_run {s u : Store} (context context' : Context) (few : is.length < 2 ^ 30)
    (wellFormed : s.domains.WellFormed) (wellFormed' : u.domains.WellFormed)
    (fits : Fits is m s.domains s.cells.values n)
    (fits' : Fits (is.filter chosen) m' u.domains u.cells.values n')
    (inside : context.activity.index < s.cells.values.size)
    (inside' : context'.activity.index < u.cells.values.size)
    (h : Bystanders chosen is s.domains u.domains) : ∃ status k s' k' u',
      (run context m).run s = .ok ((k, status), s') ∧
      (run context' m').run u = .ok ((k', status), u') ∧
      (status = .ok () → Bystanders chosen is s'.domains u'.domains) := by
  obtain ⟨active, cells, l, left, runs⟩ := exists_walk context few wellFormed fits inside
  obtain ⟨active', cells', l', left', runs'⟩ := exists_walk context'
    (Nat.lt_of_le_of_lt (List.length_filter_le ..) few) wellFormed' fits' inside'
  obtain ⟨status, t, t', ran, ran', kept⟩ := h.exists_passes (s := { s with cells })
    (u := { u with cells := cells' }) few wellFormed wellFormed' left left'
  obtain ⟨k, s', whole, same⟩ := runs status t ran
  obtain ⟨k', u', part, same'⟩ := runs' status t' ran'
  refine ⟨status, k, s', k', u', whole, part, fun ok => ?_⟩
  rw [same, same']
  exact kept ok

/-! ## Calls of the engine -/

/-- A machine over the intervals has a row of the engine. -/
structure Mounted (is : List IntervalId) (f : Engine Rule) (p : PropagatorId) (m : Machine)
    (activity : CellId) (n : Nat) : Prop where
  wellFormed : f.domains.WellFormed
  row : f.propagators.get? p.index = some (.machine m)
  here : f.activity.get? p.index = some activity
  inside : activity.index < f.store.cells.values.size
  fits : Fits is m f.domains f.store.cells.values n

theorem exists_mounted_of_visited {f : Engine Rule} {p : PropagatorId} (visited : f.Visited)
    (row : f.propagators.get? p.index = some (.machine m)) :
    ∃ activity n, Mounted m.intervals.toList f p m activity n := by
  obtain ⟨sane, covers⟩ := Guarantee.covers_of_visited Rule.family visited
  obtain ⟨activity, tracked⟩ := covers p _ row
  obtain ⟨_, n, same, fits, inside, -⟩ := tracked.invariant_now (Rule.family.lawful _) sane
  cases same
  exact ⟨activity, n, sane.wellFormed_now, row, tracked.here, inside, fits⟩

theorem exists_mounted_of_install {e f : Engine Rule} {p : PropagatorId} (sane : e.Sane)
    (known : ∀ i ∈ is, i.index < e.domains.intervals.size)
    (made : e.install ((blueprint is).map Rule.machine) = .ok (p, f)) :
    ∃ m activity n, Mounted is f p m activity n := by
  have installed := Engine.installed_of_install made
  obtain ⟨-, -, values, -⟩ := Cells.foldl_grow_spec sane.store.recordedCells
    (1 :: (blueprint is).cells)
  have cells : f.store.cells.values = _ := (congrArg Cells.values installed.cells).trans values
  have key : p.index = e.propagators.size := by rw [installed.key]
  obtain ⟨_, n, same, fits, inside, -⟩ := standing_of_blueprint known rfl p e.store.cells.values
  cases same
  refine ⟨(blueprint is).build p ⟨e.store.cells.values.size + 1⟩, ⟨e.store.cells.values.size⟩, n, {
    wellFormed := installed.domains ▸ sane.wellFormed_now
    row := ?_
    here := ?_
    inside := by rw [cells]; exact inside
    fits := by rw [cells, installed.domains]; exact fits }⟩
  · rw [installed.propagators, Table.get?_push, if_pos key]
    rfl
  · rw [installed.activity, Table.get?_push, if_pos (key.trans sane.size.symm)]

/-- Calls a new machine over the intervals. -/
def callFresh (f : Engine Rule) (is : List IntervalId) : Except Fault (Status × Engine Rule) := do
  let (q, g) ← f.install ((blueprint is).map Rule.machine)
  g.call q

/-- A machine is called in a run, or as soon as it is added to an engine of a run. -/
inductive Deployed (is : List IntervalId) (p : PropagatorId) : Engine Rule → Prop
  | posted {f : Engine Rule} {m : Machine} (visited : f.Visited)
    (row : f.propagators.get? p.index = some (.machine m)) (same : m.intervals.toList = is) :
    Deployed is p f
  | installed {e f : Engine Rule} (visited : e.Visited)
    (known : ∀ i ∈ is, i.index < e.domains.intervals.size)
    (made : e.install ((blueprint is).map Rule.machine) = .ok (p, f)) : Deployed is p f

theorem Deployed.exists_mounted {f : Engine Rule} {p : PropagatorId} (h : Deployed is p f) :
    f.Sane ∧ f.Closed ∧ ∃ m activity n, Mounted is f p m activity n := by
  cases h with
  | @posted _ m visited row same =>
    subst same
    exact ⟨(Guarantee.covers_of_visited Rule.family visited).1, visited.closed, m,
      exists_mounted_of_visited visited row⟩
  | @installed e _ visited known made =>
    have sane := (Guarantee.covers_of_visited Rule.family visited).1
    refine ⟨(Engine.installed_of_install made).sane sane (Posted.standard (.machine is)), ?_,
      exists_mounted_of_install sane known made⟩
    exact visited.closed.install ⟨sane.store, sane.agenda, sane.size⟩ made

/-- A call of a machine, and one of a new machine without the bystanders. -/
theorem Deployed.exists_calls {f : Engine Rule} {p : PropagatorId} (h : Deployed is p f)
    (few : is.length < 2 ^ 30) (chosen : IntervalId → Bool) (aside : ∀ i ∈ is, chosen i = false →
      ∀ v, f.domains.interval i = .ok v → v.isPresent = false) :
    ∃ status f' g, f.call p = .ok (status, f') ∧
      callFresh f (is.filter chosen) = .ok (status, g) ∧ (status = .ok () →
        ∀ i, (i ∈ is → chosen i = true) → g.domains.interval i = f'.domains.interval i) := by
  obtain ⟨sane, closed, m, activity, n, whole⟩ := h.exists_mounted
  obtain ⟨q, e, made⟩ := closed.exists_install ((blueprint (is.filter chosen)).map Rule.machine)
  obtain ⟨m', activity', n', part⟩ := exists_mounted_of_install sane
    (fun i mem => whole.fits.known i (List.mem_filter.1 mem).1) made
  have same : e.domains = f.domains := (Engine.installed_of_install made).domains
  have bystanders : Bystanders chosen is f.domains e.domains :=
    ⟨fun i _ => congrArg (Domains.interval · i) same, aside⟩
  obtain ⟨status, k, s, k', u, ran, ran', kept⟩ := bystanders.exists_run ⟨p, activity⟩
    ⟨q, activity'⟩ few whole.wellFormed part.wellFormed whole.fits part.fits whole.inside
    part.inside
  have called : f.call p = .ok (status,
      { f with store := s, propagators := f.propagators.set p.index (.machine k) }) :=
    Engine.call_of_run whole.here whole.row (Rule.lift_of_run ran)
  have called' : e.call q = .ok (status,
      { e with store := u, propagators := e.propagators.set q.index (.machine k') }) :=
    Engine.call_of_run part.here part.row (Rule.lift_of_run ran')
  exact ⟨status, _, _, called, bind_eq_ok_iff.2 ⟨(q, e), made, called'⟩, fun ok => (kept ok).same⟩

end Machine

namespace Domains

/-- Whether an interval has the given presence. -/
def hasPresence (d : Domains) (presence : Presence) (i : IntervalId) : Bool :=
  match d.interval i with
  | .ok v => v.presence == presence
  | .error _ => false

theorem hasPresence_eq {d : Domains} {i : IntervalId} {v : Interval} (row : d.interval i = .ok v)
    (presence : Presence) : d.hasPresence presence i = (v.presence == presence) := by
  rw [hasPresence, row]

end Domains

namespace Machine

/-- A machine finds about the intervals that are not optional what a new machine without the optional
ones finds, and about each of the optional ones what it finds about them next to the present ones
alone. -/
theorem optionals_push_none {is : List IntervalId} {p : PropagatorId} {f : Engine Rule}
    (deployed : Deployed is p f) (few : is.length < 2 ^ 30) :
    ∃ status f', f.call p = .ok (status, f') ∧
      (∃ g, callFresh f (is.filter fun i => !f.domains.hasPresence .optional i) = .ok (status, g) ∧
        (status = .ok () → ∀ i, f.domains.hasPresence .optional i = false →
          g.domains.interval i = f'.domains.interval i)) ∧
      (status = .ok () → ∀ o ∈ is, f.domains.hasPresence .optional o = true →
        ∃ g, callFresh f (is.filter fun i => f.domains.hasPresence .present i || i == o) =
            .ok (.ok (), g) ∧
          g.domains.interval o = f'.domains.interval o) := by
  obtain ⟨status, f', g, called, fresh, same⟩ := deployed.exists_calls few
    (fun i => !f.domains.hasPresence .optional i) fun i _ left v row => by
      rw [Domains.hasPresence_eq row] at left
      obtain ⟨b, presence⟩ := v
      cases presence <;> simp_all [Interval.isPresent]
  refine ⟨status, f', called, ⟨g, fresh, fun ok i left => same ok i fun _ => by simp [left]⟩,
    fun ok o mem _ => ?_⟩
  obtain ⟨status', f'', g, called', fresh, same⟩ := deployed.exists_calls few
    (fun i => f.domains.hasPresence .present i || i == o) fun i _ left v row => by
      rw [Domains.hasPresence_eq row] at left
      obtain ⟨b, presence⟩ := v
      cases presence <;> simp_all [Interval.isPresent]
  rw [called] at called'
  cases called'
  subst ok
  exact ⟨g, fresh, same rfl o fun _ => by simp⟩

/-- Two present intervals, the first one from `0` to `5` and the second one of length `2`, and two
optional ones of length `4`, of which the last one starts by `3`. -/
def guestsStart : State :=
  .reach [.newInterval ⟨0, 0, 5, 5, 5, 5⟩ .present, .newInterval ⟨0, 8, 2, 10, 2, 2⟩ .present,
    .newInterval ⟨0, 20, 4, 24, 4, 4⟩ .optional, .newInterval ⟨0, 3, 4, 7, 4, 4⟩ .optional]

def guests : List IntervalId := [⟨0⟩, ⟨1⟩, ⟨2⟩, ⟨3⟩]

/-- None of them may overlap with another one, so that the last one has become absent. -/
def guestsPosted : State := guestsStart.follow [.post (.machine guests)]

/-- The second one then has to start at `6` or later. -/
def guestsDelayed : Operation := .decide (.update ⟨1⟩ (.bound .startMin 6))

/-- The engine on which the machine is called next. -/
def guestsCalled : Engine Rule := guestsDelayed.called guestsPosted.solver

/-- The optional interval is pushed behind the second one. -/
theorem optionals_push_none_guests : ∃ f' g h, guestsCalled.call ⟨0⟩ = .ok (.ok (), f') ∧
    f'.domains.interval ⟨2⟩ = .ok ⟨⟨8, 20, 12, 24, 4, 4⟩, .optional⟩ ∧
      callFresh guestsCalled [⟨0⟩, ⟨1⟩, ⟨3⟩] = .ok (.ok (), g) ∧
      (∀ i ∈ [⟨0⟩, ⟨1⟩, ⟨3⟩], g.domains.interval i = f'.domains.interval i) ∧
      callFresh guestsCalled [⟨0⟩, ⟨1⟩, ⟨2⟩] = .ok (.ok (), h) ∧
      h.domains.interval ⟨2⟩ = f'.domains.interval ⟨2⟩ := by
  have state : ((guestsDelayed.caller? guestsPosted.solver).map Prod.fst,
      guestsCalled.propagators.get? 0, decide (guestsDelayed.Valid guestsPosted.solver),
      guests.map fun i => (guestsCalled.domains.hasPresence .present i,
        guestsCalled.domains.hasPresence .optional i)) =
      (some ⟨0⟩, some (.machine ((blueprint guests).build ⟨0⟩ ⟨1⟩)), true,
        [(true, false), (true, false), (false, true), (false, false)]) := by cbv
  have pushed : (guestsCalled.call ⟨0⟩).map (fun r => (r.1, r.2.domains.interval ⟨2⟩)) =
      .ok (.ok (), .ok ⟨⟨8, 20, 12, 24, 4, 4⟩, .optional⟩) := by cbv
  simp only [Prod.mk.injEq, decide_eq_true_eq, guests, List.map_cons, List.map_nil,
    List.cons.injEq] at state
  obtain ⟨first, row, valid, ⟨p₀, o₀⟩, ⟨p₁, o₁⟩, ⟨p₂, o₂⟩, ⟨p₃, o₃⟩, -⟩ := state
  have accessible : Accessible guestsPosted :=
    ((reachable_reach _).trans (runs_follow _ _)).freeRuns
  have deployed : Deployed guests ⟨0⟩ guestsCalled :=
    .posted (.call accessible valid (Operation.calls_of_caller? first)) row rfl
  obtain ⟨status, f', called, ⟨g, fresh, same⟩, alone⟩ :=
    optionals_push_none deployed (show guests.length < 2 ^ 30 by decide)
  simp only [called, Except.map, Except.ok.injEq, Prod.mk.injEq] at pushed
  obtain ⟨rfl, pushed⟩ := pushed
  obtain ⟨h, alone, kept⟩ := alone rfl ⟨2⟩ (by decide) o₂
  refine ⟨f', g, h, called, pushed, ?_, ?_, ?_, kept⟩
  · simpa [guests, o₀, o₁, o₂, o₃] using fresh
  · have left : ∀ i ∈ [(⟨0⟩ : IntervalId), ⟨1⟩, ⟨3⟩],
        guestsCalled.domains.hasPresence .optional i = false := by
      simp [o₀, o₁, o₃]
    exact fun i mem => same rfl i (left i mem)
  · simpa [guests, p₀, p₁, p₂, p₃] using alone

end Machine

end Scheduling
