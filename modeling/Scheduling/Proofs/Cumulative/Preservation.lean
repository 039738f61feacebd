import Scheduling.Proofs.Cumulative.Sums
import Scheduling.Proofs.Family

/-!
# A resource loses no solution

Given an assignment within the domains that keeps the level within the capacity, a run of a resource
can neither fault nor fail, and the assignment still lies within the domains afterwards.

Results:
* `Resource.returns_filter`, `Resource.returns_propagate`, `Resource.exists_run`: the parts of a run.
* `Cumulative.exists_call`: no call in any run of a solver loses a solution.
-/

namespace Scheduling

open Propagation

/-- The bounds of the height of an activity can be computed. -/
def Activity.Evaluates (x : Activity) (d : Domains) : Prop :=
  (∃ low, x.height.lower d = .ok low) ∧ ∃ high, x.height.upper d = .ok high

namespace Activity

variable {x : Activity} {d : Domains}

theorem exists_isFixed {v : Interval} (row : d.interval x.interval = .ok v) (h : x.Evaluates d) :
    ∃ fixed, x.isFixed d = .ok fixed := by
  obtain ⟨⟨low, lower⟩, high, upper⟩ := h
  simp only [isFixed, row, Variable.isFixed, lower, upper, bind, Except.bind, pure, Except.pure]
  split
  · exact ⟨true, rfl⟩
  · split
    · exact ⟨_, rfl⟩
    · exact ⟨false, rfl⟩

theorem exists_bounds {v : Interval} (row : d.interval x.interval = .ok v) (h : x.Evaluates d) :
    ∃ b, x.bounds d = .ok b := by
  obtain ⟨fixed, known⟩ := exists_isFixed row h
  obtain ⟨⟨low, lower⟩, high, upper⟩ := h
  exact ⟨_, by simp [bounds, row, lower, upper, known, bind, Except.bind, pure, Except.pure]; rfl⟩

end Activity

namespace Resource

variable {xs : List Activity} {c : Capacity} {r : Resource} {values : Table Int} {m : Nat} {s : Span}
  {cs : List Captured} {a : Assignment}

/-- The sums of the heights of captured activities fit a word, if those of all activities do. -/
theorem Captures.sumsHold {d : Domains} (h : Captures xs c r d values m s cs)
    (sums : Activity.SumsHold d xs) : ActivityBounds.SumsHold (cs.map Captured.bounds) := by
  refine sums cs h.subperm fun b mem => ?_
  obtain ⟨k, -, -, known⟩ := h.exists_key mem
  exact known

/-- Few captured activities have a profile. -/
theorem Captures.exists_build {d : Domains} (h : Captures xs c r d values m s cs)
    (wellFormed : d.WellFormed) (few : xs.length < 2 ^ 30) :
    ∃ profile, Profile.build (cs.map Captured.bounds) = .ok profile := by
  have sums := h.sumsHold (Activity.sumsHold_of_length_le wellFormed (by omega))
  exact Profile.exists_build_of_sumsHold sums fun b mem =>
    (h.heightsHold wellFormed b mem).abs_height_le

/-- The captured activities are those of an assignment that satisfies the resource. -/
theorem Captures.supports {d : Domains} (h : Captures xs c r d values m s cs)
    (wellFormed : d.WellFormed) (few : xs.length < 2 ^ 30) (accepted : c.Accepted)
    (admits : d.Admits a) (within : a.StaysWithin xs c) {profile : Profile}
    (build : Profile.build (cs.map Captured.bounds) = .ok profile) :
    TimeTable.Supports ⟨profile, c⟩ cs a := by
  have allows := h.allows wellFormed admits
  refine ⟨Profile.represents_of_build (fun b mem => ?_) build, allows, ?_, h.length_lt few, accepted⟩
  · obtain ⟨b', mem', rfl⟩ := List.mem_map.1 mem
    exact (allows b' mem').ordered
  · rintro time ⟨b, mem, executes⟩
    obtain ⟨le, lt⟩ := h.within_span wellFormed admits mem executes
    obtain ⟨k, -, here, -⟩ := h.exists_key mem
    rw [← h.level_eq admits le lt]
    exact within time ⟨b.activity, h.mem_activities here, executes⟩

/-- The test of the profile passes if some assignment satisfies the resource. -/
theorem isConsistent_of_supports {t : TimeTable} (h : t.Supports cs a) :
    t.profile.isConsistent t.capacity.minimum t.capacity.maximum = true := by
  refine List.all_eq_true.2 fun q mem => ?_
  obtain ⟨load, overlapping⟩ := h.represents.load_of_mem mem
  by_cases busy : q.overlapping = 0
  · simp [busy]
  obtain ⟨b, inside, certain⟩ := Profile.exists_of_overlappingAt_pos
    (by rw [← overlapping]; omega : 0 < Profile.overlappingAt (cs.map Captured.bounds) q.time)
  obtain ⟨b', mem', rfl⟩ := List.mem_map.1 inside
  have within := h.within q.time ⟨b', mem', (h.allows b' mem').executesAt_of_isMandatoryAt certain⟩
  have level := Profile.level_mem_loadAt h.allows q.time
  rw [← load] at level
  simp only [Load.violates, Bool.or_eq_true, beq_iff_eq, Bool.not_eq_true', Bool.or_eq_false_iff,
    decide_eq_false_iff_not]
  omega

/-- The active activities are captured, if all their bounds can be computed. -/
theorem returns_capture {u : Store} (size : u.cells.values.get? r.active.size.index = some (m : Int))
    (h : ∀ k, r.active.Has m k → ∃ b : Captured, r.activities.get? k = some b.activity ∧
      b.activity.bounds u.domains = .ok b.bounds) :
    Returns r.capture u fun cs s' => s' = u ∧
      List.Forall₂ (fun k b => r.activities.get? k = some b.activity ∧
        b.activity.bounds u.domains = .ok b.bounds) (r.active.elements.toList.take m) cs := by
  refine returns_bind (Q := fun t s' => t = u ∧ s' = u) ⟨u, u, rfl, rfl, rfl⟩ ?_
  rintro _ _ ⟨rfl, rfl⟩
  refine returns_liftM_bind (SparseSet.members_eq_ok size) (returns_mapM fun k mem => ?_)
  obtain ⟨b, here, bounds⟩ := h k (SparseSet.mem_take_iff.1 mem)
  exact returns_liftM_bind (Table.read_eq_ok_iff.2 here) (returns_inspect_bind bounds
    (returns_pure ⟨rfl, here, bounds⟩))

section Evaluates

variable {d : Domains} (fits : Fits xs c r d values m s) (evaluates : ∀ x ∈ xs, x.Evaluates d)
include fits evaluates

/-- It can be decided whether an activity is done. -/
theorem exists_isDone {k : Nat} (lt : k < r.activities.size) :
    ∃ answer, (do isDone d s (← r.activities.read k)) = .ok answer := by
  obtain ⟨x, here⟩ := Table.exists_get? lt
  have known := fits.known x (fits.mem_activities here)
  obtain ⟨v, found⟩ := Table.exists_get? known.1
  have row := Domains.interval_eq_ok_iff.2 found
  obtain ⟨fixed, isFixed⟩ := Activity.exists_isFixed row (evaluates x (fits.mem_activities here))
  refine ⟨v.isAbsent || (fixed && (decide (v.endMax ≤ s.start) || decide (v.startMin ≥ s.stop))), ?_⟩
  rw [Table.read_eq_ok_iff.2 here]
  simp only [isDone, row, isFixed, bind, Except.bind, pure, Except.pure]

/-- The bounds of an active activity can be captured. -/
theorem exists_captured {k : Nat} (has : r.active.Has m k) : ∃ b : Captured,
    r.activities.get? k = some b.activity ∧ b.activity.bounds d = .ok b.bounds := by
  obtain ⟨x, here⟩ := Table.exists_get? (fits.valid.lt_of_has has)
  have known := fits.known x (fits.mem_activities here)
  obtain ⟨v, found⟩ := Table.exists_get? known.1
  obtain ⟨b, bounds⟩ := Activity.exists_bounds (Domains.interval_eq_ok_iff.2 found)
    (evaluates x (fits.mem_activities here))
  exact ⟨⟨x, b⟩, here, bounds⟩

end Evaluates

/-- A run is a walk over the active set with the stored span, and a propagation. -/
theorem run_eq_of_dropDone {d : Domains} {r' : Resource} {u t : Store} {context : Context}
    (fits : Fits xs c r d u.cells.values m s) (dropped : (dropDone s m r).run u = .ok (r', t)) :
    (run context r).run u =
      ((r'.propagate context).exec t).map fun result => ((r', result.1), result.2) := by
  have got : (get : StateT Store (Except Fault) Store).run u = .ok (u, u) := rfl
  unfold run
  rw [run_bind_of_run got,
    run_bind_of_run (run_liftM_eq_ok_iff.2 ⟨Cells.read_eq_ok_iff.2 fits.start, rfl⟩),
    run_bind_of_run (run_liftM_eq_ok_iff.2 ⟨Cells.read_eq_ok_iff.2 fits.stop, rfl⟩),
    run_bind_of_run (run_liftM_eq_ok_iff.2 ⟨SparseSet.length_eq_ok fits.size, rfl⟩),
    run_bind_of_run dropped, StateT.run_bind]
  show ((r'.propagate context).exec t >>= _) = _
  cases (r'.propagate context).exec t <;> rfl

theorem run_of_dropDone {d : Domains} {r' : Resource} {u t u' : Store} {context : Context}
    {status : Status} (fits : Fits xs c r d u.cells.values m s)
    (dropped : (dropDone s m r).run u = .ok (r', t))
    (propagated : (r'.propagate context).exec t = .ok (status, u')) :
    (run context r).run u = .ok ((r', status), u') := by
  rw [run_eq_of_dropDone fits dropped, propagated]
  rfl

section Run

variable {u : Store} (wellFormed : u.domains.WellFormed) (few : xs.length < 2 ^ 30)
  (accepted : c.Accepted) (admits : u.domains.Admits a) (within : a.StaysWithin xs c)
include wellFormed admits

omit wellFormed in
theorem returns_switchOff {context : Context} {t : Store} (same : t.domains = u.domains)
    (cells : t.cells = u.cells) (inside : context.activity.index < u.cells.values.size) :
    Returns (setActive context false) t fun _ s' => s'.domains.Admits a :=
  returns_writeCell (by rw [cells]; exact inside) fun _ _ => by rw [same]; exact admits

include few accepted within

/-- The profile can be built, passes the test, and filtering keeps the assignment. -/
theorem returns_filter (h : Captures xs c r u.domains u.cells.values m s cs) {context : Context}
    (inside : context.activity.index < u.cells.values.size) :
    Returns (r.filter context cs) u fun _ s' => s'.domains.Admits a := by
  have same : r.capacity = c := h.capacity
  obtain ⟨profile, build⟩ := h.exists_build wellFormed few
  have supports := h.supports wellFormed few accepted admits within build
  have consistent := isConsistent_of_supports supports
  refine returns_liftM_bind build ?_
  simp only [same, consistent, Bool.not_true, Bool.false_eq_true, if_false]
  split
  · exact returns_switchOff admits rfl rfl inside
  have filtered := returns_forM (I := fun s' => u.Keeps a s')
    (l := cs.filter fun b => !b.bounds.isFixed)
    (f := TimeTable.filter ⟨profile, c⟩ (r.rules (cs.map Captured.bounds)))
    (.refl wellFormed admits) fun b mem t keeps => by
      obtain ⟨k, -, here, known⟩ := h.exists_key (List.mem_filter.1 mem).1
      by_cases room : b.bounds.startMin < b.bounds.endMax
      · exact supports.returns_filter (List.mem_filter.1 mem).1 room known wellFormed keeps
      · unfold TimeTable.filter
        rw [if_pos (by omega)]
        exact returns_pure keeps
  refine returns_bind filtered fun _ t keeps => ?_
  have start : r.spanStart.index < t.cells.values.size := by
    rw [keeps.cells]
    exact Table.lt_size_of_get? h.start
  have stop : r.spanStop.index < t.cells.values.size := by
    rw [keeps.cells]
    exact Table.lt_size_of_get? h.stop
  refine returns_bind (Q := fun _ s' => s'.domains.Admits a ∧
    r.spanStop.index < s'.cells.values.size) (returns_writeCell start fun cells assigned => ?_)
    fun _ s' written => returns_writeCell written.2 fun _ _ => written.1
  exact ⟨keeps.admits, by
    rw [(Cells.assign_spec assigned).2.1, Table.size_set]
    exact stop⟩

theorem returns_propagate (fits : Fits xs c r u.domains u.cells.values m s)
    (fresh : ∀ k x, r.activities.get? k = some x → r.active.Has m k →
      isDone u.domains s x = .ok false)
    (evaluates : ∀ x ∈ xs, x.Evaluates u.domains) {context : Context}
    (inside : context.activity.index < u.cells.values.size) :
    Returns (r.propagate context) u fun _ s' => s'.domains.Admits a := by
  refine returns_bind (returns_capture fits.size fun _ => exists_captured fits evaluates) ?_
  rintro cs _ ⟨rfl, captured⟩
  have h : Captures xs c r _ _ m s cs := { fits with fresh, captured }
  split
  · exact returns_switchOff admits rfl rfl inside
  split
  · exact returns_bind (Q := fun _ s' => s' = Store.say _ .capacitySafe) (returns_say rfl)
      fun _ s' eq => returns_switchOff admits (by rw [eq]; rfl) (by rw [eq]; rfl) inside
  · exact returns_filter wellFormed few accepted admits within h inside

/-- A run succeeds and keeps the assignment. -/
theorem exists_run (fits : Fits xs c r u.domains u.cells.values m s)
    (evaluates : ∀ x ∈ xs, x.Evaluates u.domains) {context : Context}
    (nodup : (context.activity :: r.cells).Nodup)
    (inside : context.activity.index < u.cells.values.size) :
    ∃ r' u', (run context r).run u = .ok ((r', .ok ()), u') ∧ u'.domains.Admits a := by
  obtain ⟨⟨active, cells⟩, swept⟩ := SparseSet.exists_sweep fits.valid fits.size fits.le
    (Nat.le_refl m) fun _ lt => exists_isDone fits evaluates lt
  obtain ⟨-, evolves, m', -, fits', fresh, -⟩ :=
    fits_of_sweep fits rfl (List.nodup_cons.1 nodup).2 swept
  obtain ⟨_, u', propagated, kept⟩ := returns_propagate (u := { u with cells }) wellFormed few
    accepted admits within fits' fresh evaluates (by rw [evolves.size]; exact inside)
  refine ⟨{ r with active }, u', ?_, kept⟩
  have dropped : (dropDone s m r).run u = .ok ({ r with active }, { u with cells }) := by
    rw [dropDone_eq_sweep, swept]
    rfl
  exact run_of_dropDone fits dropped propagated

end Run

end Resource

/-! ## All calls of a run -/

/-- If the bounds of a height can be computed, its value is a word. -/
theorem Activity.holds_value {x : Activity} {d : Domains} {a : Assignment} (h : x.Evaluates d)
    (wellFormed : d.WellFormed) (admits : d.Admits a) : Width.w32.Holds (a.value x.height) := by
  obtain ⟨⟨low, lower⟩, high, upper⟩ := h
  obtain ⟨holdsLow, holdsHigh, le, ge⟩ := height_between wellFormed lower upper admits
  exact ⟨Int.le_trans holdsLow.1 le, Int.le_trans ge holdsHigh.2⟩

namespace Assignment

variable {a : Assignment} {xs : List Activity}

/-- The level of few activities is never beyond the unlimited limits. -/
theorem level_between (few : xs.length < 2 ^ 30)
    (words : ∀ x ∈ xs, Width.w32.Holds (a.value x.height)) (time : Int) :
    Capacity.unlimitedMinimum ≤ a.level xs time ∧ a.level xs time ≤ Capacity.unlimitedMaximum := by
  have each (x : Activity) (mem : x ∈ xs) :
      -2147483648 ≤ a.contribution time x ∧ a.contribution time x ≤ 2147483647 := by
    have word := words x mem
    simp only [Width.Holds, Width.least, Width.greatest] at word
    rw [contribution_eq]
    split <;> omega
  have low := List.sum_le_sum (f := fun _ => (-2147483648 : Int)) fun x mem => (each x mem).1
  have high := List.sum_le_sum (g := fun _ => (2147483647 : Int)) fun x mem => (each x mem).2
  rw [List.map_const', List.sum_replicate] at low high
  have short : (xs.length : Int) < 1073741824 := by exact_mod_cast few
  simp only [Capacity.unlimitedMinimum, Capacity.unlimitedMaximum, level, nsmul_eq_mul] at *
  omega

/-- A level between the limits that were given is within the capacity that they make. -/
theorem staysWithin_of_holds {k : Cumulative} {c : Capacity}
    (accepted : Cumulative.capacity k.minimum k.maximum = .ok c)
    (between : ∀ time, Capacity.unlimitedMinimum ≤ a.level k.activities time ∧
      a.level k.activities time ≤ Capacity.unlimitedMaximum) (holds : k.Holds a) :
    a.StaysWithin k.activities c := by
  obtain ⟨rfl, -⟩ := Cumulative.eq_of_capacity accepted
  intro time executes
  obtain ⟨least, most⟩ := holds time executes
  have := between time
  constructor
  · cases low : k.minimum with
    | none => simpa using this.1
    | some m =>
      have := least m low
      simp only [Option.getD_some]
      omega
  · cases high : k.maximum with
    | none => simpa using this.2
    | some m =>
      have := most m high
      simp only [Option.getD_some]
      omega

end Assignment

namespace Cumulative

/-- The capacity of limits that are given as words is one that the rules can deal with. -/
theorem accepted_of_capacity {k : Cumulative} {c : Capacity}
    (words : ∀ m, k.minimum = some m → Width.w64.Holds m)
    (accepted : capacity k.minimum k.maximum = .ok c) : c.Accepted := by
  obtain ⟨-, most⟩ := holds_capacity words accepted
  obtain ⟨least, -⟩ := holds_capacity words accepted
  obtain ⟨rfl, nonneg⟩ := eq_of_capacity accepted
  refine ⟨Int.le_max_right .., least.2, ?_, Int.min_le_right ..⟩
  cases high : k.maximum with
  | none => simp [Capacity.unlimitedMaximum]
  | some m =>
    have := nonneg m high
    simp only [Option.getD_some, Capacity.unlimitedMaximum]
    omega

/-- Whenever the resource of a cumulative constraint is called in a run, the call succeeds and keeps
every assignment within the domains under which the constraint holds. -/
theorem exists_call {k : Cumulative} {c : State} {op : Operation} {p : PropagatorId}
    {f : Engine Rule} {r : Resource} {a : Assignment} (reachable : Reachable c)
    (valid : op.Valid c.solver) (calls : op.Calls c.solver p f)
    (row : f.propagators.get? p.index = some (.resource r))
    (activities : r.activities.toList = k.activities)
    (accepted : capacity k.minimum k.maximum = .ok r.capacity)
    (words : ∀ m, k.minimum = some m → Width.w64.Holds m) (few : k.activities.length < 2 ^ 30)
    (evaluates : ∀ x ∈ k.activities, x.Evaluates f.domains) (admits : f.domains.Admits a)
    (holds : k.Holds a) : ∃ f', f.call p = .ok (.ok (), f') ∧ f'.domains.Admits a := by
  obtain ⟨sane, activity, tracked⟩ :=
    Guarantee.tracks_of_call_of_reachable Rule.family reachable valid calls row
  have wellFormed := sane.wellFormed_now
  obtain ⟨r', m, s, same, fits, inside, -⟩ :=
    tracked.invariant_now (Rule.family.lawful _) sane
  cases same
  have nodup := sane.owned_nodup p
  rw [tracked.owned_eq] at nodup
  have between := Assignment.level_between few fun x mem =>
    Activity.holds_value (evaluates x mem) wellFormed admits
  have within := Assignment.staysWithin_of_holds accepted between holds
  rw [← activities] at few evaluates within
  obtain ⟨r', u', ran, kept⟩ : ∃ r' u', (Resource.run ⟨p, activity⟩ r).run f.store =
      .ok ((r', .ok ()), u') ∧ u'.domains.Admits a :=
    Resource.exists_run wellFormed few (accepted_of_capacity words accepted) admits within fits
      evaluates nodup inside
  exact ⟨_, Engine.call_of_run tracked.here row (Rule.lift_of_run ran), kept⟩

/-- The resource of the constraint on a pair of intervals, as it is posted. -/
def pairResource : Resource :=
  (Resource.blueprint pairConstraint.activities ⟨Capacity.unlimitedMinimum, 1⟩ .all).build ⟨0⟩ ⟨1⟩

/-- The solver after the resource is posted. -/
def pairPosted : State :=
  pairStart.follow [.post (.resource pairConstraint.activities pairResource.capacity .all)]

/-- The engine on which the resource is called once the first interval has to start by `7`. -/
def pairCalled : Engine Rule :=
  (Operation.decide (.update ⟨0⟩ (.bound .startMax 7))).called pairPosted.solver

/-- The first interval starts at `7`, and the second one at `2`. -/
def pairAssignment : Assignment :=
  ⟨fun _ => 1, fun i => if i.index = 0 then .placed 7 5 else .placed 2 5⟩

theorem holds_pairAssignment : pairConstraint.Holds pairAssignment := by
  intro time _
  refine ⟨by simp [pairConstraint], fun most eq => ?_⟩
  cases eq
  have level : pairAssignment.level pairConstraint.activities time =
      (if 7 ≤ time ∧ time < 12 then 1 else 0) + if 2 ≤ time ∧ time < 7 then 1 else 0 := by
    simp [Assignment.level, pairConstraint, Assignment.contribution, pairAssignment,
      IntervalValue.executesAt, Assignment.value, pairHeight, Variable.eval, Affine.eval]
  rw [level]
  split <;> split <;> omega

theorem exists_call_pair :
    ∃ f', pairCalled.call ⟨0⟩ = .ok (.ok (), f') ∧ f'.domains.Admits pairAssignment := by
  have called : (((Operation.decide (.update ⟨0⟩ (.bound .startMax 7))).caller?
      pairPosted.solver).map Prod.fst, pairCalled.propagators.get? 0,
      pairHeight.lower pairCalled.domains, pairHeight.upper pairCalled.domains,
      decide (pairCalled.domains.Admits pairAssignment)) =
        (some ⟨0⟩, some (.resource pairResource), .ok 1, .ok 1, true) := by cbv
  simp only [Prod.mk.injEq, decide_eq_true_eq] at called
  obtain ⟨first, row, lower, upper, admits⟩ := called
  have reachable : Reachable pairPosted := (reachable_reach _).trans (runs_follow _ _)
  exact exists_call (k := pairConstraint) reachable
    (show (Operation.decide _).Valid pairPosted.solver from trivial) (Operation.calls_of_caller? first)
    row rfl rfl (by simp [pairConstraint]) (by decide)
    (by simp [pairConstraint, Activity.Evaluates, lower, upper]) admits holds_pairAssignment

end Cumulative

end Scheduling
