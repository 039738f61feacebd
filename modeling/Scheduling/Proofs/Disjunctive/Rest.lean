import Mathlib.Data.List.NodupEquivFin
import Scheduling.Proofs.Disjunctive.Preservation
import Scheduling.Proofs.Disjunctive.Stability
import Scheduling.Proofs.Scope

/-!
# A machine at rest

A run of a machine that succeeds and changes no row has found in both directions that what the filter
comes to for the active intervals can be applied without an effect, and that none of these intervals
is absent. The next run finds the same active intervals, in whatever order; the filter then comes to
the same, in that order, and applying it has no effect again. Nothing is asked of the number of the
intervals: a filter that has found no conflict has had room for them.

Results:
* `Machine.Ineffective`: what the filter comes to has no effect on the intervals.
* `Machine.ineffective_of_perm`: this does not depend on the order of the tasks.
* `Machine.ineffective_of_filterOn`, `Machine.returns_filterOn_of_ineffective`: a pass over the
  timeline that changes no row, and a pass with an ineffective filter.
* `Machine.Steady`: the filter is ineffective on the active intervals, and there are some.
* `Machine.steady_of_run`: what a run leaves that succeeds and changes no row.
* `Machine.exists_run_of_steady`: another run succeeds and changes nothing.
-/

namespace Scheduling

open Propagation

namespace Machine

variable {dir : Direction}

/-! ## Tasks in another order -/

/-- The tasks of a part of a list are a selection of the tasks of the list, in whatever order they
come; the tasks that are not selected are those of the rest. -/
theorem exists_select_of_perm {tasks chosen rest : List MachineTask}
    (perm : tasks.Perm (chosen ++ rest)) : ∃ e : Fin chosen.length ↪ Fin tasks.length,
      (∀ i, tasks.get (e i) = chosen.get i) ∧ toTasks chosen = (toTasks tasks).select e ∧
        ∀ k, k ∉ Finset.univ.map e → tasks.get k ∈ rest := by
  have listed : List.Forall₂ (fun k x => tasks.get k = x) (List.finRange tasks.length) tasks := by
    refine List.forall₂_iff_get.2 ⟨List.length_finRange, fun i _ _ => ?_⟩
    simp
  obtain ⟨places, pairs, order⟩ := List.perm_comp_forall₂ perm.symm listed.flip
  have mem (k : Fin tasks.length) : k ∈ places := order.mem_iff.2 (List.mem_finRange k)
  let σ := (finCongr pairs.length_eq).trans (List.Nodup.getEquivOfForallMemList places
    (order.nodup_iff.2 (List.nodup_finRange _)) mem)
  have same (i : Fin (chosen ++ rest).length) : tasks.get (σ i) = (chosen ++ rest).get i :=
    List.Forall₂.get pairs i.isLt (pairs.length_eq ▸ i.isLt)
  have le : chosen.length ≤ (chosen ++ rest).length := by
    rw [List.length_append]
    exact Nat.le_add_right _ _
  let e := (Fin.castLEEmb le).trans σ.toEmbedding
  have chosen_eq (i : Fin chosen.length) : tasks.get (e i) = chosen.get i := by
    refine (same (Fin.castLE le i)).trans ?_
    simp
  refine ⟨e, chosen_eq, ?_, fun k out => ?_⟩
  · refine Tasks.eq_of_get (fun i => ?_) (fun i => ?_) fun i => ?_
    · rw [Tasks.startMin_select, toTasks_startMin, toTasks_startMin, chosen_eq]
    · rw [Tasks.duration_select, toTasks_duration, toTasks_duration, chosen_eq]
    · rw [Tasks.endMax_select, toTasks_endMax, toTasks_endMax, chosen_eq]
  · have later : chosen.length ≤ (σ.symm k).val := by
      by_contra first
      refine out (Finset.mem_map.2 ⟨⟨σ.symm k, Nat.not_le.1 first⟩, Finset.mem_univ _, ?_⟩)
      exact σ.apply_symm_apply k
    rw [← σ.apply_symm_apply k, same, List.get_eq_getElem, List.getElem_append_right later]
    exact List.getElem_mem _

/-! ## A pass that changes nothing -/

/-- The filter finds no conflict, and what it comes to, if it is something else, has no effect on
the intervals. -/
def Ineffective (dir : Direction) (scope : List Watched) (d : Domains) (tasks : List MachineTask) :
    Prop :=
  (toTasks tasks).Roomy ∧ ∃ t, (toTasks tasks).Filters (some t) ∧ (t ≠ toTasks tasks →
    ∀ k, Rests [] scope d (apply dir (tasks.get k) (t.startMin.get k) (t.endMax.get k)) ())

theorem mem_scope_of_get? {m : Machine} {k : Nat} {i : IntervalId}
    (here : m.intervals.get? k = some i) : .interval i ∈ (Rule.machine m).scope := by
  rw [Rule.scope, List.mem_map]
  exact ⟨i, List.mem_of_getElem? (by rwa [Table.get?, ← Array.getElem?_toList] at here), rfl⟩

section Pass

variable {scope : List Watched} {d d' : Domains}

theorem Ineffective.mono {tasks : List MachineTask} (h : Ineffective dir scope d tasks)
    (agrees : d.Agrees scope d') : Ineffective dir scope d' tasks := by
  obtain ⟨roomy, t, settled, rests⟩ := h
  exact ⟨roomy, t, settled, fun moved k => (rests moved k).mono agrees⟩

/-- The filter is ineffective on tasks in another order as well. -/
theorem ineffective_of_perm {tasks tasks' : List MachineTask} (perm : tasks.Perm tasks')
    (h : Ineffective dir scope d tasks) : Ineffective dir scope d tasks' := by
  obtain ⟨roomy, t, settled, rests⟩ := h
  have perm : tasks.Perm (tasks' ++ []) := by rwa [List.append_nil]
  obtain ⟨e, same, eq, rest⟩ := exists_select_of_perm perm
  have all (k : Fin tasks.length) : k ∈ Finset.univ.map e := by
    by_contra out
    exact List.not_mem_nil (rest k out)
  unfold Ineffective
  rw [eq]
  refine ⟨roomy.select e, t.select e, settled.reindex all, fun moved k => ?_⟩
  have here := rests (fun still => moved (by rw [still])) (e k)
  rw [same k] at here
  rwa [show (t.select e).startMin.get k = t.startMin.get (e k) from Tasks.startMin_select t e k,
    show (t.select e).endMax.get k = t.endMax.get (e k) from Tasks.endMax_select t e k]

/-- If a pass over the timeline changes no row, the filter is ineffective. -/
theorem ineffective_of_filterOn {is : List IntervalId} {m : Machine} {n : Nat} {s s' : Store}
    (wellFormed : s.domains.WellFormed) (fits : Fits is m s.domains s.cells.values n)
    (ran : (m.filterOn dir).exec s = .ok (.ok (), s'))
    (agrees : s.domains.Agrees (Rule.machine m).scope s'.domains) :
    s'.domains = s.domains ∧ Ineffective dir (Rule.machine m).scope s.domains
      ((m.active.elements.toList.take n).filterMap (m.taskOf dir s.domains)) := by
  obtain ⟨tasks, t, listed, rest⟩ := exec_bind_succeeds_iff.1 ran
  obtain ⟨rfl, eq⟩ := tasks_spec fits.size listed
  cases eq
  set tasks := (m.active.elements.toList.take n).filterMap (m.taskOf dir t.domains)
  have central : (toTasks tasks).Central :=
    (timely_toTasks wellFormed fun _ mem => exists_reads mem).central
  obtain ⟨⟨verdict, filtered⟩, filtering, rest⟩ := exec_liftM_bind_eq_ok_iff.1 rest
  have feasible : verdict ≠ .infeasible := by
    rintro rfl
    cases rest
  have roomy := central.roomy_of_filter filtering feasible
  obtain ⟨u, settled, outcome⟩ := central.exists_filters filtering feasible
  by_cases same : u = toTasks tasks
  · rw [same, Tasks.outcome_self] at outcome
    cases outcome
    cases rest
    exact ⟨rfl, roomy, u, settled, fun moved => absurd same moved⟩
  · rw [Tasks.outcome, if_neg same] at outcome
    cases outcome
    have applies : ∀ k ∈ List.finRange tasks.length, Local [] (Rule.machine m).scope
        (apply dir tasks[k] filtered.startMin[k] filtered.endMax[k]) := by
      intro k _
      obtain ⟨index, -, found⟩ := List.mem_filterMap.1 (List.get_mem tasks k)
      exact local_apply dir (mem_scope_of_get? (reads_of_taskOf found).1) _ _
    obtain ⟨unchanged, rests⟩ := (local_forM applies).rests t () s' wellFormed rest agrees
    exact ⟨unchanged, roomy, filtered, settled, fun _ k =>
      (rests_forM_iff applies wellFormed).1 rests k (List.mem_finRange k)⟩

/-- A pass over the timeline with an ineffective filter changes nothing. -/
theorem returns_filterOn_of_ineffective {is : List IntervalId} {m : Machine} {n : Nat} {s : Store}
    (fits : Fits is m s.domains s.cells.values n)
    (ineffective : Ineffective dir (Rule.machine m).scope s.domains
      ((m.active.elements.toList.take n).filterMap (m.taskOf dir s.domains))) :
    Returns (m.filterOn dir) s fun _ s' => s'.domains = s.domains := by
  refine returns_bind (returns_tasks fits) ?_
  rintro _ t ⟨rfl, rfl⟩
  obtain ⟨roomy, u, settled, rests⟩ := ineffective
  obtain ⟨r, settled', filtering⟩ := Tasks.exists_filter_eq roomy
  obtain rfl := settled'.unique settled
  refine returns_liftM_bind filtering ?_
  by_cases same : u = toTasks _
  · rw [same, Tasks.outcome_self]
    exact returns_pure rfl
  · rw [Tasks.outcome, if_neg same]
    exact (rests_forM (fun k _ => rests same k) t (.refl _ _) (by simp)).weaken
      fun _ _ kept => kept.2.1

end Pass

/-! ## Machines at rest -/

/-- At least two intervals are active. None of them is absent, and the filter is ineffective on their
tasks in both directions. -/
structure Steady (m : Machine) (d : Domains) (values : Table Int) (n : Nat) (ks : List Nat) :
    Prop where
  size : values.get? m.active.size.index = some (n : Int)
  nodup : ks.Nodup
  mem_iff : ∀ k, k ∈ ks ↔ m.active.Has n k
  several : 2 ≤ ks.length
  there : ∀ k ∈ ks, ∃ i v, m.intervals.get? k = some i ∧ d.interval i = .ok v ∧ v.isAbsent = false
  ineffective : ∀ dir, Ineffective dir (Rule.machine m).scope d (ks.filterMap (m.taskOf dir d))

namespace Steady

variable {m : Machine} {d d' : Domains} {values values' : Table Int} {n : Nat} {ks : List Nat}

/-- Only the rows in scope and the cell of the machine matter. -/
theorem mono (h : m.Steady d values n ks) (agrees : d.Agrees (Rule.machine m).scope d')
    (same : ∀ cell ∈ m.cells, values'.get? cell.index = values.get? cell.index) :
    m.Steady d' values' n ks := by
  have row {k : Nat} {i : IntervalId} {v : Interval} (here : m.intervals.get? k = some i)
      (known : d.interval i = .ok v) : d'.interval i = .ok v :=
    agrees.interval i v (mem_scope_of_get? here) known
  refine { h with
    size := by rw [same _ (by simp [cells]), h.size]
    there := fun k mem => ?_
    ineffective := fun dir => ?_ }
  · obtain ⟨i, v, here, known, there⟩ := h.there k mem
    exact ⟨i, v, here, row here known, there⟩
  · have tasks : ks.filterMap (m.taskOf dir d') = ks.filterMap (m.taskOf dir d) := by
      refine List.filterMap_congr fun k mem => ?_
      obtain ⟨i, v, here, known, -⟩ := h.there k mem
      simp only [taskOf, here, known, row here known]
    rw [tasks]
    exact (h.ineffective dir).mono agrees

/-- The order of the elements does not matter. -/
theorem permuted (h : m.Steady d values n ks) {active : SparseSet}
    (size : active.size = m.active.size) (same : ∀ k, active.Has n k ↔ m.active.Has n k) :
    ({ m with active } : Machine).Steady d values n ks :=
  { h with
    size := by rw [size]; exact h.size
    mem_iff := fun k => (h.mem_iff k).trans (same k).symm }

end Steady

/-- A propagation that succeeds switches the machine off, or passes over the timeline twice. -/
theorem passes_of_propagate {m : Machine} {context : Context} {s s' : Store} {n : Nat}
    (size : s.cells.values.get? m.active.size.index = some (n : Int))
    (ran : (m.propagate context).exec s = .ok (.ok (), s')) :
    n < 2 ∧ (setActive context false).exec s = .ok (.ok (), s') ∨
      2 ≤ n ∧ ∃ t, (m.filterOn .forward).exec s = .ok (.ok (), t) ∧
        (m.filterOn .mirrored).exec t = .ok (.ok (), s') := by
  rw [propagate, exec_bind, exec_get] at ran
  obtain ⟨length, counted, ran⟩ := exec_liftM_bind_eq_ok_iff.1 ran
  rw [SparseSet.length_eq_ok size] at counted
  cases counted
  split at ran
  · rename_i few
    exact .inl ⟨few, ran⟩
  · rename_i several
    obtain ⟨_, t, forward, mirrored⟩ := exec_bind_succeeds_iff.1 ran
    exact .inr ⟨Nat.not_lt.1 several, t, forward, mirrored⟩

section Run

variable {is : List IntervalId} {m : Machine} {u : Store} {n : Nat}

/-- What a propagation leaves that succeeds and changes no row. -/
theorem steady_of_propagate {context : Context} {u' : Store}
    (wellFormed : u.domains.WellFormed) (fits : Fits is m u.domains u.cells.values n)
    (fresh : ∀ k i v, m.intervals.get? k = some i → m.active.Has n k →
      u.domains.interval i = .ok v → v.isAbsent = false)
    (ran : (m.propagate context).exec u = .ok (.ok (), u'))
    (agrees : u.domains.Agrees (Rule.machine m).scope u'.domains) :
    u'.cells.values.get? context.activity.index = some 0 ∨
      ∃ ks, m.Steady u'.domains u'.cells.values n ks := by
  rcases passes_of_propagate fits.size ran with ⟨-, off⟩ | ⟨several, t, forward, mirrored⟩
  · obtain ⟨-, -, inside, values⟩ := writeCell_spec off
    left
    rw [values, Table.get?_set]
    simp [inside]
  right
  have quiet (dir : Direction) : Performs [] (m.filterOn dir) := m.performs_filterOn dir
  have first := (quiet .forward).evolves u _ t wellFormed forward
  have second := (quiet .mirrored).evolves t _ u' first.wellFormed mirrored
  have cells : t.cells.values = u.cells.values := first.cells.values_eq
  have cells' : u'.cells.values = t.cells.values := second.cells.values_eq
  obtain ⟨same, ineffective⟩ := ineffective_of_filterOn wellFormed fits forward
    (agrees.between first.domains.narrows second.domains.narrows)
  obtain ⟨same', ineffective'⟩ := ineffective_of_filterOn first.wellFormed
    (by rw [same, cells]; exact fits) mirrored (by rw [same]; exact agrees)
  rw [same] at same' ineffective'
  rw [same', cells', cells]
  have length : (m.active.elements.toList.take n).length = n := by
    have size := fits.valid.size
    have le := fits.le
    rw [List.length_take]
    simp only [Table.size, Table.toList, Array.length_toList] at size le ⊢
    omega
  refine ⟨m.active.elements.toList.take n, fits.size, fits.valid.nodup_take n,
    fun k => SparseSet.mem_take_iff, by rw [length]; exact several, fun k mem => ?_, fun dir => ?_⟩
  · have has := SparseSet.mem_take_iff.1 mem
    obtain ⟨i, here⟩ := Table.exists_get? (fits.valid.lt_of_has has)
    obtain ⟨v, found⟩ := Table.exists_get?
      (fits.known i (List.mem_of_getElem? ((fits.getElem?_eq k).trans here)))
    have row := Domains.interval_eq_ok_iff.2 found
    exact ⟨i, v, here, row, fresh k i v here has row⟩
  · cases dir with
    | forward => exact ineffective
    | mirrored => exact ineffective'

/-- What a run leaves that succeeds and changes no row: it has switched the machine off, or the
machine is steady. -/
theorem steady_of_run {m' : Machine} {context : Context} {u' : Store}
    (wellFormed : u.domains.WellFormed) (fits : Fits is m u.domains u.cells.values n)
    (ran : (run context m).run u = .ok ((m', .ok ()), u'))
    (agrees : u.domains.Agrees (Rule.machine m).scope u'.domains) :
    u'.cells.values.get? context.activity.index = some 0 ∨
      ∃ n' ks, m'.Steady u'.domains u'.cells.values n' ks := by
  obtain ⟨length, t, counted, dropped, propagated⟩ := run_spec ran
  obtain ⟨active, cells, swept, rfl, rfl⟩ := dropAbsent_spec dropped
  rw [SparseSet.length_eq_ok fits.size] at counted
  cases counted
  obtain ⟨-, -, n', -, fits', fresh, -⟩ := fits_of_sweep fits swept
  rcases steady_of_propagate (u := { u with cells }) wellFormed fits' fresh propagated agrees
    with off | ⟨ks, steady⟩
  · exact .inl off
  · exact .inr ⟨n', ks, steady⟩

/-- Another run of a steady machine succeeds and changes nothing. -/
theorem exists_run_of_steady (context : Context) {ks : List Nat}
    (wellFormed : u.domains.WellFormed) (fits : Fits is m u.domains u.cells.values n)
    (steady : m.Steady u.domains u.cells.values n ks) :
    ∃ m' u', (run context m).run u = .ok ((m', .ok ()), u') ∧ u'.domains = u.domains := by
  obtain ⟨⟨active, cells⟩, swept⟩ := SparseSet.exists_sweep fits.valid fits.size fits.le
    (Nat.le_refl n) fun _ => fits.exists_isAbsent
  obtain ⟨size, -, n', le, fits', -, larger⟩ := fits_of_sweep fits swept
  -- The walk takes no interval out, so that it leaves the same elements.
  have same (k : Nat) : active.Has n' k ↔ m.active.Has n k := by
    refine ⟨fun has => (larger n (Nat.le_refl n) k).1 (has.mono le), fun has => ?_⟩
    obtain ⟨i, v, here, row, there⟩ := steady.there k ((steady.mem_iff k).2 has)
    refine (fits'.shape k i here).resolve_right ?_
    rintro ⟨w, row', absent⟩
    rw [row] at row'
    cases row'
    rw [there] at absent
    cases absent
  have perm : ks.Perm (active.elements.toList.take n') :=
    (List.perm_ext_iff_of_nodup steady.nodup (fits'.valid.nodup_take n')).2 fun k => by
      rw [steady.mem_iff, SparseSet.mem_take_iff, same]
  have several : ¬ n' < 2 := by
    have := perm.length_eq
    have := steady.several
    rw [List.length_take] at *
    omega
  have ineffective (dir : Direction) := ineffective_of_perm (perm.filterMap (m.taskOf dir u.domains))
    (steady.ineffective dir)
  have propagates : Returns (({ m with active } : Machine).propagate context) { u with cells }
      fun _ s' => s'.domains = u.domains := by
    refine returns_bind (Q := fun t s' => t = { u with cells } ∧ s' = t)
      ⟨_, _, rfl, rfl, rfl⟩ ?_
    rintro _ t ⟨rfl, rfl⟩
    refine returns_liftM_bind (SparseSet.length_eq_ok fits'.size) ?_
    rw [if_neg several]
    obtain ⟨_, t, forward, unchanged⟩ := returns_filterOn_of_ineffective
      (m := { m with active }) (s := { u with cells }) fits' (ineffective .forward)
    have quiet : Performs [] (({ m with active } : Machine).filterOn .forward) :=
      performs_filterOn _ _
    have values := (quiet.evolves { u with cells } _ t wellFormed forward).cells.values_eq
    obtain ⟨_, s', mirrored, unchanged'⟩ := returns_filterOn_of_ineffective (s := t)
      (by rw [unchanged, values]; exact fits') (by rw [unchanged]; exact ineffective .mirrored)
    exact ⟨(), s', exec_bind_succeeds_iff.2 ⟨(), t, forward, mirrored⟩, unchanged'.trans unchanged⟩
  obtain ⟨_, u', propagated, unchanged⟩ := propagates
  exact ⟨{ m with active }, _, run_of_sweep fits swept propagated, unchanged⟩

end Run

end Machine

end Scheduling
