import Scheduling.Proofs.Windows

/-!
# Constraints that are refused

A constraint is refused because of its limits or of its window. The limits are tested after the
variables of the window have been created, and these stay.

Results:
* `Cumulative.run_post_eq_refused_iff`: a cumulative constraint that is refused leaves no trace.
* `UsageConstraint.run_post_range_eq_refused_iff` and its companions: neither does one on a usage
  function, except for the interval of its window and the height of this.
* `Posting.refused_iff`: when a constraint is refused, and what it leaves.
* `UsageConstraint.exists_trace_of_refused`: a constraint that is refused and leaves a variable.
-/

namespace Scheduling

/-- Adding a propagator is never refused because of an argument. -/
theorem Posting.add_ne_invalidArgument {P : Type} [Propagator P] {s s' : Solver P} {b : Blueprint P}
    {cause : ArgumentError} :
    (add b).run.run s ≠ .ok (.error (.invalidArgument cause), s') := by
  intro added
  rcases add_cases added with ⟨-, impossible, -⟩ | ⟨-, id, e, status, e', -, -, -, answer⟩
  · cases impossible
  · cases status <;> cases answer

/-- A cumulative constraint is refused exactly for its limits, and leaves the solver as it was. -/
theorem Cumulative.run_post_eq_refused_iff {c : Cumulative} {s s' : Solver Rule}
    {cause : ArgumentError} : c.post.run.run s = .ok (.error (.invalidArgument cause), s') ↔
      capacity c.minimum c.maximum = .error cause ∧ s' = s := by
  have resource (s s' : Solver Rule) (limits : Capacity) : (Posting.add
      ((Resource.blueprint c.activities limits c.options).map Rule.resource) >>=
        fun _ => (pure () : Posting Rule Unit)).run.run s ≠
          .ok (.error (.invalidArgument cause), s') := by
    intro refused
    rcases Posting.run_bind_eq_ok_iff.1 refused with ⟨p, s₁, -, last⟩ | ⟨cause', added, same⟩
    · cases last
    · cases same
      exact Posting.add_ne_invalidArgument added
  unfold post
  cases limits : capacity c.minimum c.maximum with
  | error cause' =>
    constructor
    · rintro ⟨⟩
      exact ⟨rfl, rfl⟩
    · rintro ⟨⟨⟩, rfl⟩
      rfl
  | ok limits =>
    refine ⟨fun refused => ?_, fun impossible => by cases impossible.1⟩
    simp only at refused
    split at refused
    · rcases Posting.run_bind_eq_ok_iff.1 refused with ⟨p, s₁, -, last⟩ | ⟨cause', added, same⟩
      · exact absurd last (resource _ _ _)
      · cases same
        exact absurd added Posting.add_ne_invalidArgument
    · exact absurd refused (resource _ _ _)

namespace UsageConstraint

variable {c : UsageConstraint} {s s' : Solver Rule} {cause : ArgumentError}

/-- The constraint is refused for its limits as soon as its activities are there. -/
theorem run_post_eq_refused_iff {s₁ : Solver Rule} {xs : List Activity}
    (made : c.activities.run.run s = .ok (.ok xs, s₁)) :
    c.post.run.run s = .ok (.error (.invalidArgument cause), s') ↔
      xs ≠ [] ∧ Cumulative.capacity c.minimum c.maximum = .error cause ∧ s' = s₁ := by
  by_cases nonempty : xs = []
  · subst nonempty
    refine ⟨fun refused => ?_, fun impossible => absurd rfl impossible.1⟩
    rcases Posting.run_bind_eq_ok_iff.1 refused with ⟨xs, s₁, made', rest⟩ | ⟨cause, made', -⟩
    · rw [made] at made'
      cases made'
      cases rest
    · rw [made] at made'
      cases made'
  · rw [run_post_of_activities made nonempty, Cumulative.run_post_eq_refused_iff]
    exact (and_iff_right nonempty).symm

section Window

variable {f : Usage} {minimum maximum : Option Int} {options : ResourceOptions}

/-- With an interval as its window, the constraint has created the height of this before. -/
theorem run_post_interval_eq_refused_iff {i : IntervalId} :
    (⟨f, some (.interval i), minimum, maximum, options⟩ : UsageConstraint).post.run.run s =
        .ok (.error (.invalidArgument cause), s') ↔
      Cumulative.capacity minimum maximum = .error cause ∧
        s' = s.withEngine (s.engine.withDomains (s.domains.addInteger ⟨0, 0⟩)) := by
  have made : (⟨f, some (.interval i), minimum, maximum, options⟩ :
      UsageConstraint).activities.run.run s =
    .ok (.ok (f.activities true ++ [⟨i, .affine (.plain s.domains.nextInteger) ⟨1, 0⟩⟩]),
      s.withEngine (s.engine.withDomains (s.domains.addInteger ⟨0, 0⟩))) := rfl
  rw [run_post_eq_refused_iff made]
  exact and_iff_right (by simp)

/-- An empty window is refused before anything is created. -/
theorem run_post_empty {start stop : Int} (empty : stop ≤ start) :
    (⟨f, some (.range start stop), minimum, maximum, options⟩ : UsageConstraint).post.run.run s =
      .ok (.error (.invalidArgument (.emptyWindow start stop)), s) := by
  have refused : (Window.range start stop).toInterval.run.run s =
      .ok (.error (.invalidArgument (.emptyWindow start stop)), s) := by
    simp only [Window.toInterval, ge_iff_le, empty, if_true]
    rfl
  simp only [post, activities, Window.toActivity, bind_assoc, ExceptT.run_bind, StateT.run_bind,
    refused]
  rfl

/-- With a window from one time up to another, the constraint is refused for the window, or has
created an interval and its height before. -/
theorem run_post_range_eq_refused_iff {start stop : Int} :
    (⟨f, some (.range start stop), minimum, maximum, options⟩ : UsageConstraint).post.run.run s =
        .ok (.error (.invalidArgument cause), s') ↔
      stop ≤ start ∧ cause = .emptyWindow start stop ∧ s' = s ∨
        start < stop ∧ Cumulative.capacity minimum maximum = .error cause ∧
          ∃ first last, Window.span start stop = .ok (first, last) ∧
            s' = s.withWindow first last := by
  rcases Int.lt_or_le start stop with lt | empty
  · have made := run_activities lt f minimum maximum options s
    cases placed : Window.span start stop with
    | error fault =>
      rw [run_post_range_eq_error lt placed]
      simp [Int.not_le.2 lt]
    | ok ends =>
      obtain ⟨first, last⟩ := ends
      rw [placed] at made
      rw [run_post_eq_refused_iff made]
      simp [lt, Int.not_le.2 lt]
  · rw [run_post_empty empty]
    simp [empty, Int.not_lt.2 empty, eq_comm]

end Window

end UsageConstraint

/-- When a constraint is refused, and what it leaves. A cumulative constraint leaves the solver as
it was. So does one on a usage function that has no window, or an empty one. If its limits are
refused, the interval of its window and the height of this are there, and nothing else has changed.
-/
theorem Posting.refused_iff (s s' : Solver Rule) (cause : ArgumentError) :
    (∀ c : Cumulative, c.post.run.run s = .ok (.error (.invalidArgument cause), s') ↔
      Cumulative.capacity c.minimum c.maximum = .error cause ∧ s' = s) ∧
    ∀ c : UsageConstraint, c.post.run.run s = .ok (.error (.invalidArgument cause), s') ↔
      match c.window with
      | none => c.usage.activities true ≠ [] ∧
        Cumulative.capacity c.minimum c.maximum = .error cause ∧ s' = s
      | some (.interval _) => Cumulative.capacity c.minimum c.maximum = .error cause ∧
        s' = s.withEngine (s.engine.withDomains (s.domains.addInteger ⟨0, 0⟩))
      | some (.range start stop) => stop ≤ start ∧ cause = .emptyWindow start stop ∧ s' = s ∨
        start < stop ∧ Cumulative.capacity c.minimum c.maximum = .error cause ∧
          ∃ first last, Window.span start stop = .ok (first, last) ∧
            s' = s.withEngine (s.engine.withDomains
              ((s.domains.addInterval ⟨.point first last, .present⟩).addInteger ⟨0, 0⟩)) := by
  refine ⟨fun c => Cumulative.run_post_eq_refused_iff, fun c => ?_⟩
  obtain ⟨f, window, minimum, maximum, options⟩ := c
  cases window with
  | none =>
    have made : (⟨f, none, minimum, maximum, options⟩ : UsageConstraint).activities.run.run s =
      .ok (.ok (f.activities true), s) := rfl
    exact UsageConstraint.run_post_eq_refused_iff made
  | some w =>
    cases w with
    | interval i => exact UsageConstraint.run_post_interval_eq_refused_iff
    | range start stop => exact UsageConstraint.run_post_range_eq_refused_iff

/-! ## A height that stays -/

namespace Refused

/-- An interval and no integer variable. -/
def start : State := .reach [.newInterval (.point 0 5) .present]

/-- The least level during the interval is to be above the greatest one. -/
def constraint : UsageConstraint := .within .flat (.interval ⟨0⟩) 3 2

end Refused

open Refused in
/-- A constraint that is refused for its limits leaves the height of its window. -/
theorem UsageConstraint.exists_trace_of_refused : ∃ (c : State) (constraint : UsageConstraint)
    (cause : ArgumentError) (s' : Solver Rule), Reachable c ∧ c.solver.isInfeasible = false ∧
    constraint.Valid c.solver.domains ∧
    constraint.post.run.run c.solver = .ok (.error (.invalidArgument cause), s') ∧
    s'.domains.integers.size ≠ c.solver.domains.integers.size := by
  have sizes : ((constraint.post.run.run start.solver).map Prod.fst,
      (constraint.post.after start.solver).domains.integers.size,
      start.solver.domains.integers.size, start.solver.domains.intervals.size,
      start.solver.isInfeasible) =
        (.ok (.error (.invalidArgument (.invalidCapacity 3 2))), 1, 0, 1, false) := by cbv
  simp only [Prod.mk.injEq] at sizes
  obtain ⟨refused, after, before, intervals, feasible⟩ := sizes
  have valid : constraint.Valid start.solver.domains := by
    refine ⟨fun x mem => ?_, fun i window => ?_, fun m least => ?_⟩
    · cases mem
    · cases window
      rw [intervals]
      decide
    · cases least
      decide
  exact ⟨start, constraint, _, _, reachable_reach _, feasible, valid,
    Posting.run_eq_of_map refused, by rw [after, before]; decide⟩

end Scheduling
