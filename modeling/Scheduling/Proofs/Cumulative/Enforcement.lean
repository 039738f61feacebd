import Scheduling.Proofs.Cumulative.Resource
import Scheduling.Proofs.Trace
import Scheduling.Proofs.Posting

/-!
# Cumulative constraints are enforced

A cumulative constraint that was posted holds in every later state of the run in which its
activities are fixed, whatever was decided, undone and decided again in between.

Results:
* `Cumulative.Holds`: what the constraint means, in terms of the limits that it was given.
* `Resource.keeps_of_post`: its propagator gives its guarantee from the time when it is posted.
* `Cumulative.holds_of_isFixed`: the constraint holds once its activities are fixed.
-/

namespace Scheduling

/-- Wherever an activity executes, the level of all activities lies between the limits. -/
def Cumulative.Holds (k : Cumulative) (a : Assignment) : Prop :=
  ∀ time, (∃ x ∈ k.activities, (a.interval x.interval).executesAt time = true) →
    (∀ least, k.minimum = some least → least ≤ a.level k.activities time) ∧
      ∀ most, k.maximum = some most → a.level k.activities time ≤ most

namespace Resource

/-- At first every activity is active, and lies within the span. -/
theorem has_of_blueprint {xs : List Activity} {c : Capacity} (options : ResourceOptions)
    {d d' : Domains} (known : d.Knows xs) (wellFormed : d'.WellFormed)
    (intervals : d'.intervals.size = d.intervals.size) (p : PropagatorId) (cell : CellId) {k : Nat}
    {x : Activity} (here : ((blueprint xs c options).build p cell).activities.get? k = some x) :
    ((blueprint xs c options).build p cell).active.Has xs.length k ∧
      Covered d' ⟨Width.w64.least, Width.w64.greatest⟩ x := by
  have inside := Table.lt_size_of_get? here
  rw [show ((blueprint xs c options).build p cell).activities = .ofList xs from rfl,
    show (Table.ofList xs).size = xs.length by simp [Table.ofList, Table.size]] at inside
  have mem : x ∈ xs := by
    simp only [blueprint, Table.ofList, Table.get?] at here
    simpa using List.mem_of_getElem? (by simpa using here : xs[k]? = some x)
  obtain ⟨v, found⟩ := Table.exists_get? (by rw [intervals]; exact (known x mem).1)
  have interval : d'.interval x.interval = .ok v := Domains.interval_eq_ok_iff.2 found
  obtain ⟨s1, s2, s3, s4, -, s6, -⟩ := wellFormed.interval _ v interval
  simp only [horizon] at s1 s2
  refine ⟨(SparseSet.valid_full _ _).has_all inside, v, interval, ?_, ?_⟩ <;>
    simp only [Width.least, Width.greatest] <;> omega

/-- The invariant of a resource holds as soon as it is posted. -/
theorem standing_of_blueprint {xs : List Activity} {c : Capacity} (options : ResourceOptions)
    {d d' : Domains} (known : d.Knows xs) (wellFormed : d'.WellFormed)
    (integers : d'.integers.size = d.integers.size) (intervals : d'.intervals.size = d.intervals.size)
    (p : PropagatorId) (values : Table Int) :
    Standing xs c ⟨values.size⟩
      (.resource ((blueprint xs c options).build p ⟨values.size + 1⟩)) d'
      ((1 :: (blueprint xs c options).cells).foldl Table.push values) := by
  have row (i : Nat) : ((1 :: (blueprint xs c options).cells).foldl Table.push values).get?
      (values.size + i) = (1 :: (blueprint xs c options).cells)[i]? := by
    rw [Table.get?_foldl_push, if_neg (by omega), Nat.add_sub_cancel_left]
  have size : (Table.ofList xs).size = xs.length := by simp [Table.ofList, Table.size]
  refine ⟨_, xs.length, ⟨Width.w64.least, Width.w64.greatest⟩, rfl, {
    activities := by simp [blueprint, Table.ofList, Table.toList]
    capacity := rfl
    known := fun x mem => by
      rw [integers, intervals]
      exact known x mem
    valid := by
      rw [show ((blueprint xs c options).build p ⟨values.size + 1⟩).activities = .ofList xs from rfl,
        size]
      exact SparseSet.valid_full _ _
    size := row 1
    le := Nat.le_of_eq size.symm
    start := row 2
    stop := row 3
    shape := fun k x here =>
      .inl (has_of_blueprint options known wellFormed intervals p _ here) }, ?_, fun zero => ?_⟩
  · rw [Table.size_foldl_push]
    simp
  · have one := row 0
    rw [Nat.add_zero, zero] at one
    simp at one

theorem exists_watch {xs : List Activity} {c : Capacity} (options : ResourceOptions) {v : Watched}
    {event : Event} (watches : (guarantee xs c).Watches v event) :
    ∃ watch ∈ (blueprint xs c options).watches, watch.Tells v event := by
  obtain ⟨x, mem, watch, mem', tells⟩ := watches
  exact ⟨watch, List.mem_flatMap.2 ⟨x, mem, mem'⟩, tells⟩

/-- From the time when it is posted a resource gives its guarantee. -/
theorem keeps_of_post {c c' : State} {xs : List Activity} {capacity : Capacity}
    {options : ResourceOptions} (ready : c.Ready)
    (step : Step (.post (.resource xs capacity options)) c c') (done : c'.last = .done)
    (feasible : c'.solver.isInfeasible = false) :
    (guarantee xs capacity).Keeps ⟨c.solver.engine.propagators.size⟩ c' := by
  refine Guarantee.keeps_of_post (lawful xs capacity) (P := fun _ _ => True)
    (fun _ _ _ _ _ => trivial) (fun _ => ready.sane) rfl step (fun _ _ _ => trivial) done feasible
    (fun v event => exists_watch options) fun k => ?_
  have start := standing_of_blueprint (c := capacity) options step.valid.1
    (ready.sane.store.wellFormed k) (Domains.size_past c.solver.engine.domains k).1
    (Domains.size_past c.solver.engine.domains k).2 ⟨c.solver.engine.propagators.size⟩
    (c.solver.engine.store.cells.past k)
  simp only [Cells.size_past] at start
  exact start

end Resource

namespace Cumulative

/-- A constraint that is not refused ends with the step that posts its resource. -/
theorem exists_step_of_post {k : Cumulative} {c : State} {s : Solver Rule} (sane : c.Sane)
    (last : c.last ≠ .failed) (known : c.solver.domains.Knows k.activities)
    (words : ∀ m, k.minimum = some m → Width.w64.Holds m)
    (posted : k.post.run.run c.solver = .ok (.ok (), s)) :
    ∃ limits c₁, capacity k.minimum k.maximum = .ok limits ∧ c₁.Ready ∧
      Step (.post (.resource k.activities limits k.options)) c₁ ⟨s, .done⟩ ∧
      s.isInfeasible = false := by
  unfold post at posted
  cases accepted : capacity k.minimum k.maximum with
  | error cause =>
    rw [accepted] at posted
    cases posted
  | ok limits =>
    have words := holds_capacity words accepted
    have resource (c₁ : State) (ready : c₁.Ready) (known : c₁.solver.domains.Knows k.activities)
        (ran : (Posting.add (Posted.resource k.activities limits k.options).blueprint >>=
          fun _ => pure ()).run.run c₁.solver = .ok (.ok (), s)) :
        Step (.post (.resource k.activities limits k.options)) c₁ ⟨s, .done⟩ ∧
          s.isInfeasible = false := by
      rcases Posting.run_bind_eq_ok_iff.1 ran with ⟨p, s₁, added, rest⟩ | ⟨cause, -, impossible⟩
      · cases rest
        obtain ⟨step, ready, -⟩ := Posting.step_of_add_ok
          (x := .resource k.activities limits k.options) ready ⟨known, words⟩ added
        exact ⟨step, ready.feasible⟩
      · cases impossible
    have ready (b : Blueprint Rule) (f : PropagatorId → Posting Rule Unit)
        (ran : (Posting.add b >>= f).run.run c.solver = .ok (.ok (), s)) : c.Ready := by
      rcases Posting.run_bind_eq_ok_iff.1 ran with ⟨p, s₁, added, -⟩ | ⟨cause, -, impossible⟩
      · have feasible := Posting.feasible_of_add added
        exact ⟨feasible, last, sane feasible⟩
      · cases impossible
    simp only [accepted] at posted
    split at posted
    · have ready := ready _ _ posted
      rcases Posting.run_bind_eq_ok_iff.1 posted with ⟨p, s₁, added, rest⟩ | ⟨cause, -, impossible⟩
      · obtain ⟨step, ready₁, -⟩ := Posting.step_of_add_ok
          (x := .checker ⟨k.activities, limits⟩) ready trivial added
        obtain ⟨last, feasible⟩ := resource ⟨s₁, .done⟩ ready₁
          (known.extends (step.extends (fun _ => ready.sane) ready₁.feasible)) rest
        exact ⟨limits, ⟨s₁, .done⟩, rfl, ready₁, last, feasible⟩
      · cases impossible
    · have ready := ready _ _ posted
      obtain ⟨step, feasible⟩ := resource c ready known posted
      exact ⟨limits, c, rfl, ready, step, feasible⟩

/-- A level within an accepted capacity lies between the limits that were given. -/
theorem holds_of_staysWithin {k : Cumulative} {limits : Capacity}
    (accepted : capacity k.minimum k.maximum = .ok limits) {a : Assignment}
    (within : a.StaysWithin k.activities limits) : k.Holds a := by
  obtain ⟨rfl, -⟩ := eq_of_capacity accepted
  intro time executes
  obtain ⟨low, high⟩ := within time executes
  refine ⟨fun least eq => ?_, fun most eq => ?_⟩
  · simp only [eq, Option.getD_some] at low
    omega
  · simp only [eq, Option.getD_some] at high
    omega

/-- A constraint that was posted holds in every later state in which its activities are fixed: some
assignment lies within the domains, and under each of them the level stays between the limits. -/
theorem holds_of_isFixed {k : Cumulative} {c c' : State} {s : Solver Rule} (reachable : Reachable c)
    (ready : c.last ≠ .failed) (known : c.solver.domains.Knows k.activities)
    (words : ∀ m, k.minimum = some m → Width.w64.Holds m) (few : k.activities.length < 2 ^ 30)
    (posted : k.post.run.run c.solver = .ok (.ok (), s)) (runs : Runs ⟨s, .done⟩ c')
    (feasible : c'.solver.isInfeasible = false) (last : c'.last ≠ .failed)
    (fixed : ∀ x ∈ k.activities, x.isFixed c'.solver.domains = .ok true) :
    (∃ a, c'.solver.domains.Admits a) ∧ ∀ a, c'.solver.domains.Admits a → k.Holds a := by
  obtain ⟨limits, c₁, accepted, ready₁, step, feasible₁⟩ :=
    exists_step_of_post (sane_of_reachable reachable) ready known words posted
  have lawful := Resource.lawful k.activities limits
  have start := Resource.keeps_of_post ready₁ step rfl feasible₁
  have keeps := Guarantee.keeps_of_steps lawful (fun _ _ _ _ _ => trivial) runs start feasible
  have wellFormed := keeps.sane.wellFormed_now
  have accepts := keeps.accepts lawful last
  exact ⟨wellFormed.exists_admits, fun a admits =>
    holds_of_staysWithin accepted (accepts fixed few a admits)⟩

/-- Two present intervals of length `5`, one that starts between `0` and `8` and one at `2`, and a
height of `1`. -/
def pairStart : State :=
  .reach [.newInterval ⟨0, 8, 5, 13, 5, 5⟩ .present, .newInterval ⟨2, 2, 7, 7, 5, 5⟩ .present,
    .newInteger 1 1]

/-- The height of both intervals. -/
def pairHeight : Variable := .affine (.plain ⟨0⟩) ⟨1, 0⟩

/-- Not both of them may execute at a time. -/
def pairConstraint : Cumulative :=
  ⟨[⟨⟨0⟩, pairHeight⟩, ⟨⟨1⟩, pairHeight⟩], none, some 1, .all, false⟩

/-- The first one is then made to start by `7`. -/
def pairEnd : State :=
  .follow ⟨pairConstraint.post.after pairStart.solver, .done⟩
    [.decide (.update ⟨0⟩ (.bound .startMax 7))]

theorem holds_of_isFixed_pair :
    (∃ a, pairEnd.solver.domains.Admits a) ∧
      ∀ a, pairEnd.solver.domains.Admits a → pairConstraint.Holds a := by
  have posted : pairConstraint.post.answer? pairStart.solver = some () := by cbv
  have final : (pairEnd.solver.isInfeasible, pairEnd.last,
      pairConstraint.activities.map (·.isFixed pairEnd.solver.domains)) =
        (false, .done, [.ok true, .ok true]) := by cbv
  simp only [Prod.mk.injEq, pairConstraint, List.map_cons, List.cons.injEq] at final
  obtain ⟨feasible, last, first, second, -⟩ := final
  exact holds_of_isFixed (reachable_reach _) (by decide +kernel) (by decide +kernel)
    (by simp [pairConstraint]) (by decide) (Posting.run_eq_of_answer? posted) (runs_follow _ _)
    feasible (by rw [last]; decide)
    (by simp [pairConstraint, first, second])

end Cumulative

end Scheduling
