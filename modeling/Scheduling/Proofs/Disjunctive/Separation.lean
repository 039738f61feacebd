import Scheduling.Proofs.Disjunctive.Machine
import Scheduling.Proofs.Trace

/-!
# A machine separates its intervals

A no-overlap that was posted with a machine holds in every later state of the run, for as many of
its intervals as are placed.

Results:
* `Machine.keeps_of_post`: a machine gives its guarantee from the time when it is posted.
* `NoOverlap.separated_of_post`: at no time two of the listed intervals execute.
-/

namespace Scheduling

namespace Machine

variable {is : List IntervalId}

/-- The invariant of a machine holds as soon as it is posted. -/
theorem standing_of_blueprint {d d' : Domains} (known : ∀ i ∈ is, i.index < d.intervals.size)
    (intervals : d'.intervals.size = d.intervals.size) (p : PropagatorId) (values : Table Int) :
    Standing is ⟨values.size⟩ (.machine ((blueprint is).build p ⟨values.size + 1⟩)) d'
      ((1 :: (blueprint is).cells).foldl Table.push values) := by
  have row (k : Nat) : ((1 :: (blueprint is).cells).foldl Table.push values).get?
      (values.size + k) = (1 :: (blueprint is).cells)[k]? := by
    rw [Table.get?_foldl_push, if_neg (by omega), Nat.add_sub_cancel_left]
  have size : ((blueprint is).build p ⟨values.size + 1⟩).intervals.size = is.length := by
    simp [blueprint, Table.ofList, Table.size]
  refine ⟨_, is.length, rfl, {
    intervals := by simp [blueprint, Table.ofList, Table.toList]
    known := fun i mem => by
      rw [intervals]
      exact known i mem
    valid := by
      rw [size]
      exact SparseSet.valid_full _ _
    size := row 1
    le := Nat.le_of_eq size.symm
    shape := fun k i here => .inl ?_ }, ?_, fun zero => ?_⟩
  · have inside := Table.lt_size_of_get? here
    rw [size] at inside
    exact (SparseSet.valid_full _ _).has_all inside
  · rw [Table.size_foldl_push]
    simp
  · have one := row 0
    rw [Nat.add_zero, zero] at one
    simp at one

theorem exists_watch {v : Watched} {event : Event} (watches : (guarantee is).Watches v event) :
    ∃ watch ∈ (blueprint is).watches, watch.Tells v event := by
  obtain ⟨i, mem, tells⟩ := watches
  exact ⟨_, List.mem_map_of_mem mem, tells⟩

/-- From the time when it is posted a machine gives its guarantee. -/
theorem keeps_of_post {c c' : State} (ready : c.Ready) (step : Step (.post (.machine is)) c c')
    (done : c'.last = .done) (feasible : c'.solver.isInfeasible = false) :
    (guarantee is).Keeps ⟨c.solver.engine.propagators.size⟩ c' := by
  refine Guarantee.keeps_of_post (lawful is) (P := fun _ _ => True) (fun _ _ _ _ _ => trivial)
    (fun _ => ready.sane) rfl step (fun _ _ _ => trivial) done feasible
    (fun v event => exists_watch) fun k => ?_
  have start := standing_of_blueprint step.valid
    (Domains.size_past c.solver.engine.domains k).2 ⟨c.solver.engine.propagators.size⟩
    (c.solver.engine.store.cells.past k)
  simp only [Cells.size_past] at start
  exact start

end Machine

namespace NoOverlap

/-- The precedence of a pair is posted only to a problem that is not known to be infeasible. -/
theorem feasible_of_postPair {pair : IntervalId × IntervalId} {s s' : Solver Rule} {l : Literal}
    (posted : (postPair pair).run.run s = .ok (.ok l, s')) : s.isInfeasible = false := by
  rcases Posting.run_bind_eq_ok_iff.1 posted with ⟨l', s₁, created, rest⟩ | ⟨cause, -, impossible⟩
  · obtain ⟨_, made, -⟩ := Posting.run_liftM_eq_ok_iff.1 created
    cases made
    rcases Posting.run_bind_eq_ok_iff.1 rest with ⟨p, s₂, added, -⟩ | ⟨cause, -, impossible⟩
    · have feasible := Posting.feasible_of_add added
      exact feasible
    · cases impossible
  · cases impossible

theorem feasible_of_mapM {l : List (IntervalId × IntervalId)} {s s' : Solver Rule}
    {literals : List Literal} (posted : (l.mapM postPair).run.run s = .ok (.ok literals, s'))
    (feasible : s'.isInfeasible = false) : s.isInfeasible = false := by
  cases l with
  | nil =>
    cases posted
    exact feasible
  | cons pair l =>
    rw [List.mapM_cons] at posted
    rcases Posting.run_bind_eq_ok_iff.1 posted with ⟨l', s₁, first, -⟩ | ⟨cause, -, impossible⟩
    · exact feasible_of_postPair first
    · cases impossible

/-- A no-overlap of at least two intervals ends with the step that posts its machine. -/
theorem exists_step_of_post {k : NoOverlap} {c : State} {s : Solver Rule} {literals : List Literal}
    (method : k.method = .pairsAndMachine) (several : ¬ k.intervals.length < 2) (sane : c.Sane)
    (last : c.last ≠ .failed) (known : ∀ i ∈ k.intervals, i.index < c.solver.domains.intervals.size)
    (posted : k.post.run.run c.solver = .ok (.ok literals, s)) :
    ∃ c₁ : State, c₁.Ready ∧ Step (.post (.machine k.intervals)) c₁ ⟨s, .done⟩ ∧
      s.isInfeasible = false := by
  rw [post, if_neg several] at posted
  rcases Posting.run_bind_eq_ok_iff.1 posted with ⟨ls, s₁, pairs, rest⟩ | ⟨cause, -, impossible⟩
  swap
  · cases impossible
  rw [if_pos method] at rest
  rcases Posting.run_bind_eq_ok_iff.1 rest with ⟨p, s₂, added, last'⟩ | ⟨cause, -, impossible⟩
  swap
  · cases impossible
  cases last'
  have feasible := feasible_of_mapM pairs (Posting.feasible_of_add added)
  have ready : c.Ready := ⟨feasible, last, sane feasible⟩
  obtain ⟨last₁, runs, done⟩ := Posting.walks_mapM ready (fun pair c' ready' =>
    walks_postPair ready') _ _ pairs
  obtain ⟨ready₁, -⟩ := done _ rfl
  have more := runs.extends (fun _ => ready.sane) ready₁.feasible
  obtain ⟨step, ready₂, -⟩ := Posting.step_of_add_ok (x := .machine k.intervals) ready₁
    (fun i mem => Nat.lt_of_lt_of_le (known i mem) more.intervals) added
  exact ⟨_, ready₁, step, ready₂.feasible⟩

/-- After a no-overlap was posted with a machine, no two of the listed intervals that are present
and have a known start and end execute at the same time, in any later state. -/
theorem separated_of_post {k : NoOverlap} {c c' : State} {s : Solver Rule} {literals : List Literal}
    (method : k.method = .pairsAndMachine) (reachable : Reachable c) (ready : c.last ≠ .failed)
    (known : ∀ i ∈ k.intervals, i.index < c.solver.domains.intervals.size)
    (posted : k.post.run.run c.solver = .ok (.ok literals, s)) (runs : Runs ⟨s, .done⟩ c')
    (feasible : c'.solver.isInfeasible = false) (last : c'.last ≠ .failed) :
    k.intervals.Pairwise c'.solver.domains.Separated := by
  by_cases several : k.intervals.length < 2
  · refine List.pairwise_iff_getElem.2 fun i j inside inside' lt => ?_
    omega
  obtain ⟨c₁, ready₁, step, feasible₁⟩ := exists_step_of_post method several
    (sane_of_reachable reachable) ready known posted
  have lawful := Machine.lawful k.intervals
  have start := Machine.keeps_of_post ready₁ step rfl feasible₁
  have keeps := Guarantee.keeps_of_steps lawful (fun _ _ _ _ _ => trivial) runs start feasible
  exact keeps.accepts lawful last

/-- Two present intervals of length `5`: one that starts between `0` and `8`, and one at `2`. -/
def pairStart : State :=
  .reach [.newInterval ⟨0, 8, 5, 13, 5, 5⟩ .present, .newInterval ⟨2, 2, 7, 7, 5, 5⟩ .present]

/-- They may not overlap. -/
def pairConstraint : NoOverlap := ⟨[⟨0⟩, ⟨1⟩], .pairsAndMachine⟩

/-- The first one is then made to start by `7`. -/
def pairEnd : State :=
  .follow ⟨pairConstraint.post.after pairStart.solver, .done⟩
    [.decide (.update ⟨0⟩ (.bound .startMax 7))]

theorem separated_of_post_pair : pairEnd.solver.domains.Places ⟨0⟩ 7 12 ∧
    pairEnd.solver.domains.Places ⟨1⟩ 2 7 ∧
      pairConstraint.intervals.Pairwise pairEnd.solver.domains.Separated := by
  have posted : pairConstraint.post.answer? pairStart.solver = some [⟨⟨0⟩, true⟩] := by cbv
  have final : (pairEnd.solver.isInfeasible, pairEnd.last, pairEnd.solver.domains.intervals) =
      (false, .done, ⟨#[⟨⟨7, 7, 12, 12, 5, 5⟩, .present⟩, ⟨⟨2, 2, 7, 7, 5, 5⟩, .present⟩]⟩) := by
    cbv
  simp only [Prod.mk.injEq] at final
  obtain ⟨feasible, last, rows⟩ := final
  have row (k : Nat) : pairEnd.solver.domains.intervals.get? k = _ :=
    congrArg (Table.get? · k) rows
  exact ⟨⟨_, Domains.interval_eq_ok_iff.2 (row 0), rfl, rfl, rfl, rfl, rfl⟩,
    ⟨_, Domains.interval_eq_ok_iff.2 (row 1), rfl, rfl, rfl, rfl, rfl⟩,
    separated_of_post (k := pairConstraint) rfl (reachable_reach _) (by decide +kernel)
      (by decide +kernel) (Posting.run_eq_of_answer? posted) (runs_follow _ _) feasible
      (by rw [last]; decide)⟩

end NoOverlap

end Scheduling
