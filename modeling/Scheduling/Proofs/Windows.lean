import Scheduling.Proofs.Cumulative.Addition

/-!
# Windows of usage constraints

A constraint that is to hold from one time up to another gets an interval for its window. Start and
length of the window are clipped to the horizon one without the other, so that the interval is the
part of the window within the horizon only if the window lies within the horizon, or reaches over
both of its ends and has a length that fits a word.

Results:
* `Interval.ofBounds_point`: a new interval with known start and end.
* `Window.run_toInterval`: where the interval of a window comes to lie, if it can be made at all.
* `Window.fits_iff`: the windows for which this is the part within the horizon.
* `UsageConstraint.staysWithin_window`: what the activity of the window adds to a constraint.
* `UsageConstraint.within_range_exact`: posting such a constraint does not fault and constrains the
  level throughout the window and while an activity executes, at no other times, exactly if the
  window is one of these.
* `UsageConstraint.exists_window_shifted`: a window over one end of the horizon is moved as a whole.
-/

namespace Scheduling

/-! ## Intervals with known start and end -/

/-- The bounds of an interval with known start and end. -/
def Bounds.point (start stop : Int) : Bounds :=
  ⟨start, start, stop, stop, stop - start, stop - start⟩

/-- Bounds that admit a placement can be made consistent. -/
theorem Interval.exists_ofBounds {bounds : Bounds} (presence : Presence) {start length : Int}
    (within : bounds.WithinHorizon) (admits : bounds.Admits start length) :
    ∃ row, Interval.ofBounds bounds presence = .ok row := by
  unfold Interval.ofBounds
  split
  · exact ⟨_, rfl⟩
  · rename_i left failed
    exact absurd admits (Bounds.not_admits_of_propagate_eq_false (.inr within) failed start length)

theorem Interval.ofBounds_eq_error {bounds : Bounds} {presence : Presence}
    (within : bounds.WithinHorizon) (none : ∀ start length, ¬ bounds.Admits start length) :
    Interval.ofBounds bounds presence = .error .unsupportedInterval := by
  unfold Interval.ofBounds
  split
  · rename_i left consistent
    obtain ⟨settled, tightens, -⟩ := Bounds.settled_of_propagate_eq_true (.inr within) consistent
    obtain ⟨start, length, admits⟩ := settled.exists_admits
    exact absurd (tightens.admits admits) (none start length)
  · rfl

/-- Known bounds are consistent as they are. -/
theorem Interval.ofBounds_point {start stop : Int} (presence : Presence) (first : -horizon ≤ start)
    (le : start ≤ stop) (last : stop ≤ horizon) :
    Interval.ofBounds (.point start stop) presence = .ok ⟨.point start stop, presence⟩ := by
  have within : (Bounds.point start stop).WithinHorizon := by
    constructor <;> simp only [Bounds.point, horizon] at * <;> omega
  have admits : (Bounds.point start stop).Admits start (stop - start) := by
    constructor <;> simp only [Bounds.point] <;> omega
  obtain ⟨row, made⟩ := exists_ofBounds presence within admits
  obtain ⟨rfl, -, tightens, kept⟩ := ofBounds_spec within made
  obtain ⟨t1, t2, t3, t4, t5, t6⟩ := tightens
  obtain ⟨k1, k2, k3, k4, k5, k6⟩ := kept _ _ admits
  obtain ⟨⟨b1, b2, b3, b4, b5, b6⟩, p⟩ := row
  rw [made]
  simp only [Bounds.point] at *
  simp only [Except.ok.injEq, mk.injEq, Bounds.mk.injEq, and_true]
  omega

/-! ## Where a window comes to lie -/

namespace Window

/-- The first time and the end of the interval that a window from `start` to `stop` gets. -/
def span (start stop : Int) : Except Fault (Int × Int) := do
  let length ← Width.w32.sub stop start
  let first := Session.clip start
  let last := first + min length (2 * horizon)
  if last ≤ horizon then return (first, last) else throw .unsupportedInterval

/-- The times of the window that the horizon has room for. -/
def Contains (start stop time : Int) : Prop :=
  (start ≤ time ∧ time < stop) ∧ -horizon ≤ time ∧ time < horizon

/-- The window lies within the horizon, or it reaches over both ends and has a length in its word.
-/
def Fits (start stop : Int) : Prop :=
  -horizon ≤ start ∧ stop ≤ horizon ∨
    start ≤ -horizon ∧ horizon ≤ stop ∧ Width.w32.Holds (stop - start)

instance (start stop time : Int) : Decidable (Contains start stop time) :=
  inferInstanceAs (Decidable (_ ∧ _))

instance (start stop : Int) : Decidable (Fits start stop) := inferInstanceAs (Decidable (_ ∨ _))

theorem span_eq_ok_iff {start stop first last : Int} :
    span start stop = .ok (first, last) ↔ Width.w32.Holds (stop - start) ∧
      first = Session.clip start ∧ last = first + min (stop - start) (2 * horizon) ∧
      last ≤ horizon := by
  unfold span
  simp only [bind_eq_ok_iff, Width.sub_eq_ok_iff]
  constructor
  · rintro ⟨length, ⟨holds, rfl⟩, placed⟩
    split at placed <;> cases placed
    exact ⟨holds, rfl, rfl, by assumption⟩
  · rintro ⟨holds, rfl, rfl, le⟩
    exact ⟨_, ⟨holds, rfl⟩, by rw [if_pos le]; rfl⟩

/-- A window that fits gets the part of it within the horizon. -/
theorem span_of_fits {start stop : Int} (lt : start < stop) (fits : Fits start stop) :
    span start stop = .ok (max start (-horizon), min stop horizon) := by
  rw [span_eq_ok_iff]
  simp only [Fits, Session.clip, horizon, Width.Holds, Width.least, Width.greatest] at *
  omega

/-- The windows that fit are all those whose interval executes exactly at the times of the window
within the horizon. -/
theorem fits_iff {start stop : Int} (lt : start < stop) :
    Fits start stop ↔ ∃ first last, span start stop = .ok (first, last) ∧ ∀ time,
      first ≤ time ∧ time < last ↔ Contains start stop time := by
  simp only [Contains]
  constructor
  · intro fits
    exact ⟨_, _, span_of_fits lt fits, fun time => by omega⟩
  · rintro ⟨first, last, placed, same⟩
    obtain ⟨holds, clipped, ends, le⟩ := span_eq_ok_iff.1 placed
    by_cases wide : start ≤ -horizon ∧ horizon ≤ stop
    · exact .inr ⟨wide.1, wide.2, holds⟩
    · left
      have atFirst := same first
      have atLast := same (last - 1)
      simp only [Session.clip, horizon] at *
      omega

end Window

/-- The solver with a present interval from `first` to `last` and a variable that is zero. -/
def Solver.withWindow (s : Solver Rule) (first last : Int) : Solver Rule :=
  s.withEngine ((s.engine.withDomains
    (s.domains.addInterval ⟨.point first last, .present⟩)).newInteger ⟨0, 0⟩).2

/-- The activity over this interval, whose height is this variable. -/
def Solver.windowActivity (s : Solver Rule) : Activity :=
  ⟨s.domains.nextInterval, .affine (.plain s.domains.nextInteger) ⟨1, 0⟩⟩

/-- A fixed interval that is clipped to the horizon exists if it ends there. -/
theorem Session.ofBounds_clippedBounds {start length : Int} (presence : Presence)
    (nonneg : 0 ≤ length) :
    Interval.ofBounds (clippedBounds start start length length) presence =
      if clip start + min length (2 * horizon) ≤ horizon then
        .ok ⟨.point (clip start) (clip start + min length (2 * horizon)), presence⟩
      else .error .unsupportedInterval := by
  have inside : -horizon ≤ clip start := by
    simp only [clip, horizon]
    omega
  split
  · rename_i le
    have known : clippedBounds start start length length =
        .point (clip start) (clip start + min length (2 * horizon)) := by
      simp only [clippedBounds, Bounds.point, Bounds.mk.injEq, true_and]
      refine ⟨?_, ?_, ?_, ?_⟩ <;> simp only [clip, horizon] at * <;> omega
    rw [known]
    refine Interval.ofBounds_point presence inside ?_ le
    simp only [horizon]
    omega
  · rename_i beyond
    refine Interval.ofBounds_eq_error (withinHorizon_clippedBounds nonneg (Int.le_refl _))
      fun first long admits => beyond ?_
    obtain ⟨h1, h2, h3, h4, h5, h6⟩ := admits
    simp only [clippedBounds, clip, horizon] at *
    omega

theorem Session.run_onEngine {P α : Type} (f : Engine P → Except Fault (α × Engine P))
    (s : Solver P) : (onEngine f).run s = (f s.engine).map fun r => (r.1, s.withEngine r.2) := by
  have first : (onEngine f).run s = ((liftM (f s.engine) : Session P (α × Engine P)).run s >>=
      fun r => (do set (s.withEngine r.1.2); return r.1.1 : Session P α).run r.2) := rfl
  rw [first, run_liftM]
  cases f s.engine <;> rfl

/-- What a new fixed interval does. -/
theorem Session.run_newFixedInterval {s : Solver Rule} {start length : Int} (nonneg : 0 ≤ length) :
    (newFixedInterval start length).run s =
      (Interval.ofBounds (clippedBounds start start length length) .present).map fun row =>
        (s.domains.nextInterval,
          s.withEngine (s.engine.withDomains (s.domains.addInterval row))) := by
  have nonempty : (decide (start < start) || decide (length < 0) || decide (length < length)) =
      false := by
    simp [nonneg]
  simp only [newFixedInterval, newInterval, nonempty, Bool.false_eq_true, if_false, run_onEngine,
    Engine.newInterval]
  cases Interval.ofBounds (clippedBounds start start length length) .present <;> rfl

namespace Window

/-- A window gets its interval, or a fault. -/
theorem run_toInterval {start stop : Int} {s : Solver Rule} (lt : start < stop) :
    (range start stop).toInterval.run.run s = (span start stop).map fun ends =>
      (.ok s.domains.nextInterval, s.withEngine (s.engine.withDomains
        (s.domains.addInterval ⟨.point ends.1 ends.2, .present⟩))) := by
  have nonempty : ¬ start ≥ stop := by omega
  simp only [toInterval, nonempty, if_false, span]
  cases difference : Width.w32.sub stop start with
  | error fault => rfl
  | ok length =>
    obtain ⟨-, rfl⟩ := Width.sub_eq_ok_iff.1 difference
    show ((Session.newFixedInterval start (stop - start)).run s).map _ = _
    rw [Session.run_newFixedInterval (by omega), Session.ofBounds_clippedBounds _ (by omega)]
    show _ = Except.map _ (if _ then _ else _)
    split <;> rfl

end Window

/-- The activities of a constraint with a window are those of its function and that of the window.
-/
theorem UsageConstraint.run_activities {start stop : Int} (lt : start < stop) (f : Usage)
    (minimum maximum : Option Int) (options : ResourceOptions) (s : Solver Rule) :
    (⟨f, some (.range start stop), minimum, maximum, options⟩ :
        UsageConstraint).activities.run.run s = (Window.span start stop).map fun ends =>
      (.ok (f.activities true ++ [s.windowActivity]), s.withWindow ends.1 ends.2) := by
  simp only [activities, Window.toActivity, bind_assoc, ExceptT.run_bind, StateT.run_bind,
    Window.run_toInterval lt]
  cases Window.span start stop <;> rfl

/-- Unless there are no activities, they are constrained to stay within the limits. -/
theorem UsageConstraint.run_post_of_activities {c : UsageConstraint} {s s₁ : Solver Rule}
    {xs : List Activity} (made : c.activities.run.run s = .ok (.ok xs, s₁)) (nonempty : xs ≠ []) :
    c.post.run.run s =
      (Cumulative.post ⟨xs, c.minimum, c.maximum, c.options, false⟩).run.run s₁ := by
  have some : xs.isEmpty = false := by simpa using nonempty
  simp only [post, ExceptT.run_bind, StateT.run_bind, made]
  simp only [bind, Except.bind, some]
  rfl

/-! ## The solver with the window -/

namespace Solver

variable {s : Solver Rule} {first last : Int}

theorem narrows_withWindow : s.domains.Narrows (s.withWindow first last).domains :=
  (Domains.narrows_addInterval _ _).trans (Domains.narrows_addInteger _ _)

theorem places_withWindow :
    (s.withWindow first last).domains.Places s.domains.nextInterval first last :=
  ⟨⟨.point first last, .present⟩, Domains.interval_eq_ok_iff.2 (by
    show (s.domains.intervals.push _).get? s.domains.intervals.size = _
    simp [Table.get?_push]), rfl, rfl, rfl, rfl, rfl⟩

theorem executesAt_window {a : Assignment} (admits : (s.withWindow first last).domains.Admits a)
    (time : Int) : (a.interval s.domains.nextInterval).executesAt time = true ↔
      first ≤ time ∧ time < last := by
  rw [admits.interval_eq_of_places places_withWindow]
  simp [IntervalValue.executesAt]

theorem integer_withWindow :
    (s.withWindow first last).domains.integer s.domains.nextInteger = .ok ⟨0, 0⟩ :=
  Domains.integer_eq_ok_iff.2 (by
    show (s.domains.integers.push _).get? s.domains.integers.size = _
    simp [Table.get?_push])

theorem knows_withWindow (first last : Int) {xs : List Activity} (known : s.domains.Knows xs) :
    (s.withWindow first last).domains.Knows (xs ++ [s.windowActivity]) := by
  have intervals :
      (s.withWindow first last).domains.intervals.size = s.domains.intervals.size + 1 :=
    Table.size_push ..
  have integers : (s.withWindow first last).domains.integers.size = s.domains.integers.size + 1 :=
    Table.size_push ..
  intro x mem
  rw [intervals, integers]
  rcases List.mem_append.1 mem with old | new
  · obtain ⟨interval, integer⟩ := known x old
    exact ⟨by omega, by omega⟩
  · obtain rfl := List.mem_singleton.1 new
    exact ⟨Nat.lt_succ_self _, Nat.lt_succ_self _⟩

/-- The height of the window is zero. -/
theorem evaluates_windowActivity :
    s.windowActivity.Evaluates (s.withWindow first last).domains := by
  constructor <;> refine ⟨0, ?_⟩ <;>
    simp only [windowActivity, Variable.lower, Variable.upper, Variable.bound,
      integer_withWindow] <;> rfl

theorem value_windowActivity {a : Assignment}
    (admits : (s.withWindow first last).domains.Admits a) :
    a.value s.windowActivity.height = 0 := by
  have zero : a.integer s.domains.nextInteger = 0 := by
    obtain ⟨low, high⟩ := admits.integer _ _ integer_withWindow
    exact Int.le_antisymm high low
  simp [windowActivity, Assignment.value, Variable.eval, Variable.base, Affine.eval, zero]

end Solver

/-- A window is created by two operations. -/
theorem Accessible.withWindow {c : State} {first last : Int} (accessible : Accessible c)
    (least : -horizon ≤ first) (le : first ≤ last) (most : last ≤ horizon) :
    Accessible ⟨c.solver.withWindow first last, .done⟩ := by
  have within : (Bounds.point first last).WithinHorizon := by
    constructor <;> simp only [Bounds.point, horizon] at * <;> omega
  have made : (Operation.newInterval (.point first last) .present).run c.solver =
      .ok ⟨c.solver.withEngine (c.solver.engine.withDomains
        (c.solver.domains.addInterval ⟨.point first last, .present⟩)), .done⟩ := by
    simp only [Operation.run, Session.run_onEngine, Engine.newInterval,
      Interval.ofBounds_point .present least le most]
    rfl
  have valid : (Operation.newInterval (.point first last) .present).Valid c.solver := within
  have zero (s : Solver Rule) : (Operation.newInteger 0 0).Valid s := ⟨by decide, by decide⟩
  exact .next (.next accessible valid made) (zero _) rfl

/-! ## Posting -/

namespace UsageConstraint

section Range

variable {f : Usage} {start stop first last least most : Int} {options : ResourceOptions}
  {limits : Capacity} {s : Solver Rule}

/-- With a window that gets an interval, and limits that are accepted, the constraint adds a
resource. -/
theorem run_post_range (lt : start < stop) (placed : Window.span start stop = .ok (first, last))
    (accepted : Cumulative.capacity (some least) (some most) = .ok limits) :
    (⟨f, some (.range start stop), some least, some most, options⟩ :
        UsageConstraint).post.run.run s =
      (Posting.add (Posted.resource (f.activities true ++ [s.windowActivity]) limits
        options).blueprint >>= fun _ => (pure () : Posting Rule Unit)).run.run
          (s.withWindow first last) := by
  have created := run_activities lt f (some least) (some most) options s
  rw [placed] at created
  rw [run_post_of_activities created (by simp), Cumulative.post, accepted]
  rfl

/-- A window that gets no interval is a fault. -/
theorem run_post_range_eq_error {fault : Fault} {minimum maximum : Option Int} (lt : start < stop)
    (failed : Window.span start stop = .error fault) :
    (⟨f, some (.range start stop), minimum, maximum, options⟩ :
      UsageConstraint).post.run.run s = .error fault := by
  have created := run_activities lt f minimum maximum options s
  rw [failed] at created
  simp only [post, ExceptT.run_bind, StateT.run_bind, created]
  rfl

/-- Whatever posting the constraint comes to, it has added a resource over its activities and that
of the window. -/
theorem added_of_post_range {result : Except PostError Unit} {s' : Solver Rule}
    (sane : (s.withWindow first last).engine.Sane) (feasible : s.isInfeasible = false)
    (known : s.domains.Knows (f.activities true)) (lt : start < stop)
    (placed : Window.span start stop = .ok (first, last))
    (accepted : Cumulative.capacity (some least) (some most) = .ok limits)
    (posted : (⟨f, some (.range start stop), some least, some most, options⟩ :
      UsageConstraint).post.run.run s = .ok (result, s')) :
    (result = .ok () ∨ result = .error .infeasiblePropagator) ∧
      Resource.Added (f.activities true ++ [s.windowActivity]) limits (s.withWindow first last)
        s' := by
  have known' := Solver.knows_withWindow first last known
  rw [run_post_range lt placed accepted] at posted
  rcases Posting.run_bind_eq_ok_iff.1 posted with ⟨p, s₁, ran, last⟩ | ⟨cause, ran, rfl⟩
  · cases last
    exact ⟨.inl rfl, (Resource.added_of_add sane feasible known' ran).2⟩
  · obtain ⟨ends, added⟩ := Resource.added_of_add sane feasible known' ran
    refine ⟨.inr ?_, added⟩
    rcases ends with ⟨p, impossible⟩ | infeasible
    · cases impossible
    · cases infeasible
      rfl

/-- Posting the constraint comes to an end if its window gets an interval. -/
theorem exists_post_range {c : State}
    (accessible : Accessible ⟨c.solver.withWindow first last, .done⟩)
    (feasible : c.solver.isInfeasible = false) (known : c.solver.domains.Knows (f.activities true))
    (few : (f.activities true).length + 1 < 2 ^ 30)
    (evaluates : ∀ x ∈ f.activities true, x.Evaluates c.solver.domains)
    (wellFormed : c.solver.domains.WellFormed) (lt : start < stop)
    (placed : Window.span start stop = .ok (first, last)) (word : Width.w64.Holds least)
    (accepted : Cumulative.capacity (some least) (some most) = .ok limits)
    (others : ∀ p e, (Operation.post (.resource (f.activities true ++ [c.solver.windowActivity])
      limits options)).Calls (c.solver.withWindow first last) p e →
        p.index < c.solver.engine.propagators.size → ∃ status e', e.call p = .ok (status, e')) :
    ∃ result s', (⟨f, some (.range start stop), some least, some most, options⟩ :
      UsageConstraint).post.run.run c.solver = .ok (result, s') := by
  have wellFormed' := (sane_of_accessible accessible).wellFormed_now
  have evaluates' (x : Activity) (mem : x ∈ f.activities true ++ [c.solver.windowActivity]) :
      x.Evaluates (c.solver.withWindow first last).domains := by
    rcases List.mem_append.1 mem with old | new
    · exact (evaluates x old).narrows Solver.narrows_withWindow wellFormed wellFormed'
    · obtain rfl := List.mem_singleton.1 new
      exact Solver.evaluates_windowActivity
  have words (m : Int) (eq : some least = some m) : Width.w64.Holds m := Option.some.inj eq ▸ word
  obtain ⟨result, s', added⟩ := Cumulative.exists_add
    (k := ⟨f.activities true ++ [c.solver.windowActivity], some least, some most, options, false⟩)
    accessible feasible accepted words (Solver.knows_withWindow _ _ known) (by simpa using few)
    evaluates' others
  rw [run_post_range lt placed accepted]
  cases result with
  | ok p => exact ⟨_, _, Posting.run_bind_eq_ok_iff.2 (.inl ⟨p, s', added, rfl⟩)⟩
  | error cause => exact ⟨_, _, Posting.run_bind_eq_ok_iff.2 (.inr ⟨cause, added, rfl⟩)⟩

/-- The activity of the window adds the times at which the level has to stay between the limits, and
does not change the level. -/
theorem staysWithin_window {a : Assignment} {xs : List Activity}
    (accepted : Cumulative.capacity (some least) (some most) = .ok limits)
    (few : xs.length + 1 < 2 ^ 30) (evaluates : ∀ x ∈ xs, x.Evaluates s.domains)
    (wellFormed : s.domains.WellFormed) (admits : (s.withWindow first last).domains.Admits a) :
    a.StaysWithin (xs ++ [s.windowActivity]) limits ↔ ∀ time, (first ≤ time ∧ time < last ∨
      ∃ x ∈ xs, (a.interval x.interval).executesAt time = true) →
        least ≤ a.level xs time ∧ a.level xs time ≤ most := by
  let k : Cumulative := ⟨xs ++ [s.windowActivity], some least, some most, .all, false⟩
  have zero := Solver.value_windowActivity admits
  have level (time : Int) : a.level (xs ++ [s.windowActivity]) time = a.level xs time := by
    simp [Assignment.level, Assignment.contribution, zero]
  have executes (time : Int) : (∃ x ∈ xs ++ [s.windowActivity],
      (a.interval x.interval).executesAt time = true) ↔ first ≤ time ∧ time < last ∨
        ∃ x ∈ xs, (a.interval x.interval).executesAt time = true := by
    have window : (a.interval s.windowActivity.interval).executesAt time = true ↔
        first ≤ time ∧ time < last := Solver.executesAt_window admits time
    simp only [List.mem_append, List.mem_singleton, or_and_right, exists_or, exists_eq_left, window]
    exact or_comm
  have holds : k.Holds a ↔ ∀ time, (first ≤ time ∧ time < last ∨
      ∃ x ∈ xs, (a.interval x.interval).executesAt time = true) →
        least ≤ a.level xs time ∧ a.level xs time ≤ most := by
    simp only [Cumulative.Holds, k, executes, level, Option.some.injEq, forall_eq']
  rw [← holds]
  refine ⟨Cumulative.holds_of_staysWithin (k := k) accepted,
    Assignment.staysWithin_of_holds (k := k) accepted fun time => ?_⟩
  rw [show a.level k.activities time = a.level xs time from level time]
  exact Assignment.level_between (by omega) (fun x mem => Activity.holds_value (evaluates x mem)
    wellFormed (Solver.narrows_withWindow.admits admits)) time

/-- Posting a constraint on a usage function with a window does not fault, and has the level stay
between the limits throughout the part of the window within the horizon and while an activity of the
function executes, at no other times, if and only if the window fits. -/
theorem within_range_exact {c : State} (accessible : Accessible c)
    (feasible : c.solver.isInfeasible = false) (known : c.solver.domains.Knows (f.activities true))
    (few : (f.activities true).length + 1 < 2 ^ 30)
    (evaluates : ∀ x ∈ f.activities true, x.Evaluates c.solver.domains) (lt : start < stop)
    (word : Width.w64.Holds least)
    (accepted : Cumulative.capacity (some least) (some most) = .ok limits)
    (others : ∀ p e, (Operation.post (.resource (f.activities true ++ [c.solver.windowActivity])
      limits options)).Calls (c.solver.withWindow (max start (-horizon)) (min stop horizon)) p e →
        p.index < c.solver.engine.propagators.size → ∃ status e', e.call p = .ok (status, e')) :
    (∃ result s' r, (⟨f, some (.range start stop), some least, some most, options⟩ :
        UsageConstraint).post.run.run c.solver = .ok (result, s') ∧
      (result = .ok () ∨ result = .error .infeasiblePropagator) ∧
      s'.engine.propagators.size = c.solver.engine.propagators.size + 1 ∧
      s'.engine.propagators.get? c.solver.engine.propagators.size = some (.resource r) ∧
      ∀ a, s'.domains.Admits a →
        (∀ time, (a.interval c.solver.domains.nextInterval).executesAt time = true ↔
          Window.Contains start stop time) ∧
        (r.Holds a ↔ ∀ time, (Window.Contains start stop time ∨
          ∃ x ∈ f.activities true, (a.interval x.interval).executesAt time = true) →
            least ≤ a.level (f.activities true) time ∧ a.level (f.activities true) time ≤ most)) ↔
    Window.Fits start stop := by
  have wellFormed := (sane_of_accessible accessible).wellFormed_now
  have reaches {first last : Int} (placed : Window.span start stop = .ok (first, last)) :
      Accessible ⟨c.solver.withWindow first last, .done⟩ := by
    obtain ⟨-, rfl, rfl, le⟩ := Window.span_eq_ok_iff.1 placed
    refine accessible.withWindow ?_ ?_ le <;> simp only [Session.clip, horizon] <;> omega
  constructor
  · -- The window lies somewhere, and some assignment shows where.
    rintro ⟨result, s', r, posted, -, -, -, same⟩
    cases placed : Window.span start stop with
    | error fault =>
      rw [run_post_range_eq_error lt placed] at posted
      cases posted
    | ok ends =>
      obtain ⟨first, last⟩ := ends
      have sane := sane_of_accessible (reaches placed)
      obtain ⟨-, added⟩ := added_of_post_range sane feasible known lt placed accepted posted
      obtain ⟨a, admits⟩ := added.wellFormed.exists_admits
      refine (Window.fits_iff lt).2 ⟨first, last, placed, fun time => ?_⟩
      rw [← (same a admits).1 time, Solver.executesAt_window (added.narrows.admits admits)]
  · intro fits
    have placed := Window.span_of_fits lt fits
    have inside (time : Int) : max start (-horizon) ≤ time ∧ time < min stop horizon ↔
        Window.Contains start stop time := by
      simp only [Window.Contains]
      omega
    have sane := sane_of_accessible (reaches placed)
    obtain ⟨result, s', posted⟩ := exists_post_range (reaches placed) feasible known few evaluates
      wellFormed lt placed word accepted others
    obtain ⟨ends, added⟩ := added_of_post_range sane feasible known lt placed accepted posted
    obtain ⟨r, row, activities, capacity⟩ := added.row
    refine ⟨result, s', r, posted, ends, added.size, row, fun a admits => ?_⟩
    have admits' := added.narrows.admits admits
    constructor
    · intro time
      rw [← inside, Solver.executesAt_window admits']
    · rw [Resource.Holds, activities, capacity,
        staysWithin_window accepted few evaluates wellFormed admits']
      simp only [inside]

end Range

end UsageConstraint

/-! ## Windows that reach over the horizon -/

namespace Overreaching

/-- An interval from `0` to `5`, and a height between `0` and `3`. -/
def start : State := .reach [.newInterval ⟨0, 0, 5, 5, 5, 5⟩ .present, .newInteger 0 3]

/-- This height during the interval. -/
def pulse : Usage := .pulse ⟨0⟩ ⟨0⟩

theorem evaluates : ∀ x ∈ pulse.activities true, x.Evaluates start.solver.domains := by
  have ends : (pulse.activities true).map (fun x => (x.height.lower start.solver.domains,
      x.height.upper start.solver.domains)) = [(.ok 0, .ok 3)] := by cbv
  simp only [pulse, Usage.activities, List.map_cons, List.map_nil, List.cons.injEq, Prod.mk.injEq,
    and_true] at ends
  simp only [pulse, Usage.activities, List.mem_singleton, forall_eq]
  exact ⟨⟨_, ends.1⟩, _, ends.2⟩

end Overreaching

open Overreaching in
/-- A window that reaches over both ends of the horizon. -/
theorem UsageConstraint.within_range_exact_overreaching :
    ∃ result s' r, (⟨pulse, some (.range (-horizon - 5) (horizon + 5)), some 0, some 2, .all⟩ :
        UsageConstraint).post.run.run start.solver = .ok (result, s') ∧
      (result = .ok () ∨ result = .error .infeasiblePropagator) ∧
      s'.engine.propagators.size = start.solver.engine.propagators.size + 1 ∧
      s'.engine.propagators.get? start.solver.engine.propagators.size = some (.resource r) ∧
      ∀ a, s'.domains.Admits a →
        (∀ time, (a.interval start.solver.domains.nextInterval).executesAt time = true ↔
          Window.Contains (-horizon - 5) (horizon + 5) time) ∧
        (r.Holds a ↔ ∀ time, (Window.Contains (-horizon - 5) (horizon + 5) time ∨
          ∃ x ∈ pulse.activities true, (a.interval x.interval).executesAt time = true) →
            0 ≤ a.level (pulse.activities true) time ∧
              a.level (pulse.activities true) time ≤ 2) := by
  have alone : start.solver.engine.propagators.size = 0 := by cbv
  have accessible : Accessible start := (reachable_reach _).accessible
  have known : start.solver.domains.Knows (pulse.activities true) := by decide +kernel
  have accepted : Cumulative.capacity (some 0) (some 2) = .ok ⟨0, 2⟩ := rfl
  exact (within_range_exact accessible (by cbv) known (by decide) evaluates (by decide) (by decide)
    accepted fun p e _ old => by simp [alone] at old).2 (by decide)

namespace Overreaching

/-- An interval at the beginning of the horizon, and a height of `1`. -/
def edge : State :=
  .reach [.newInterval (.point (-horizon) (-horizon + 5)) .present, .newInteger 1 1]

/-- The height is to be `1` from before the horizon to the end of the interval. -/
def demand : UsageConstraint := .within pulse (.range (-horizon - 10) (-horizon + 5)) 1 1

/-- The solver after this was posted. -/
def demanded : Solver Rule := demand.post.after edge.solver

theorem rows_edge : edge.solver.domains.Places ⟨0⟩ (-horizon) (-horizon + 5) ∧
    edge.solver.domains.integer ⟨0⟩ = .ok ⟨1, 1⟩ := by
  have rows : (edge.solver.domains.interval ⟨0⟩, edge.solver.domains.integer ⟨0⟩) =
      (.ok ⟨.point (-horizon) (-horizon + 5), .present⟩, .ok ⟨1, 1⟩) := by cbv
  simp only [Prod.mk.injEq] at rows
  exact ⟨⟨_, rows.1, rfl, rfl, rfl, rfl, rfl⟩, rows.2⟩

theorem rows_demanded : demanded.domains.Places ⟨0⟩ (-horizon) (-horizon + 5) ∧
    demanded.domains.Places ⟨1⟩ (-horizon) (-horizon + 15) := by
  have rows : (demanded.domains.interval ⟨0⟩, demanded.domains.interval ⟨1⟩) =
      (.ok ⟨.point (-horizon) (-horizon + 5), .present⟩,
        .ok ⟨.point (-horizon) (-horizon + 15), .present⟩) := by cbv
  simp only [Prod.mk.injEq] at rows
  exact ⟨⟨_, rows.1, rfl, rfl, rfl, rfl, rfl⟩, _, rows.2, rfl, rfl, rfl, rfl, rfl⟩

/-- The demand is met as it stands. -/
theorem level_edge {a : Assignment} (admits : edge.solver.domains.Admits a) {time : Int}
    (inside : Window.Contains (-horizon - 10) (-horizon + 5) time ∨
      ∃ x ∈ pulse.activities true, (a.interval x.interval).executesAt time = true) :
    a.level (pulse.activities true) time = 1 := by
  have interval := admits.interval_eq_of_places rows_edge.1
  obtain ⟨low, high⟩ := admits.integer _ _ rows_edge.2
  have height : a.integer ⟨0⟩ = 1 := Int.le_antisymm high low
  simp only [pulse, Usage.activities, List.mem_singleton, exists_eq_left, interval,
    IntervalValue.executesAt, Window.Contains, Bool.and_eq_true, decide_eq_true_eq] at inside
  have during : (a.interval ⟨0⟩).executesAt time = true := by
    simp only [interval, IntervalValue.executesAt, Bool.and_eq_true, decide_eq_true_eq]
    omega
  simp [pulse, Usage.activities, Assignment.level, Assignment.contribution, during,
    Usage.value_signed, height]

end Overreaching

open Overreaching in
/-- A window over one end of the horizon is moved as a whole: a demand that is met throughout the
window is refused, because of times after its end at which no activity executes. -/
theorem UsageConstraint.exists_window_shifted : ∃ (c : State) (f : Usage)
    (start stop least most : Int) (limits : Capacity) (s' : Solver Rule), Reachable c ∧
    c.solver.isInfeasible = false ∧ c.solver.domains.Knows (f.activities true) ∧
    (∀ x ∈ f.activities true, x.Evaluates c.solver.domains) ∧
    start < stop ∧ Width.w32.Holds start ∧ Width.w32.Holds stop ∧
    Cumulative.capacity (some least) (some most) = .ok limits ∧
    (∀ a, c.solver.domains.Admits a → ∀ time, (Window.Contains start stop time ∨
      ∃ x ∈ f.activities true, (a.interval x.interval).executesAt time = true) →
        least ≤ a.level (f.activities true) time ∧ a.level (f.activities true) time ≤ most) ∧
    (within f (.range start stop) least most).post.run.run c.solver =
      .ok (.error .infeasiblePropagator, s') ∧
    ∃ time, ¬ Window.Contains start stop time ∧ ∀ a, s'.domains.Admits a →
      (a.interval c.solver.domains.nextInterval).executesAt time = true ∧
        ∀ x ∈ f.activities true, (a.interval x.interval).executesAt time = false := by
  have ends : ((edge.solver.isInfeasible, edge.solver.domains.nextInterval),
      (pulse.activities true).map fun x => (x.height.lower edge.solver.domains,
        x.height.upper edge.solver.domains)) = ((false, ⟨1⟩), [(.ok 1, .ok 1)]) := by cbv
  simp only [pulse, Usage.activities, List.map_cons, List.map_nil, List.cons.injEq, Prod.mk.injEq,
    and_true] at ends
  have posted : (demand.post.run.run edge.solver).map Prod.fst =
      .ok (.error .infeasiblePropagator) := by cbv
  refine ⟨edge, pulse, -horizon - 10, -horizon + 5, 1, 1, ⟨1, 1⟩, demanded, reachable_reach _,
    ends.1.1, by decide +kernel, ?_, by decide, by decide, by decide, rfl,
    fun a admits time inside => ?_, ?_, -horizon + 5, by decide, fun a admits => ⟨?_, ?_⟩⟩
  · simp only [pulse, Usage.activities, List.mem_singleton, forall_eq]
    exact ⟨⟨_, ends.2.1⟩, _, ends.2.2⟩
  · rw [level_edge admits inside]
    exact ⟨Int.le_refl _, Int.le_refl _⟩
  · exact Posting.run_eq_of_map posted
  · rw [ends.1.2, admits.interval_eq_of_places rows_demanded.2]
    decide
  · simp only [pulse, Usage.activities, List.mem_singleton, forall_eq,
      admits.interval_eq_of_places rows_demanded.1]
    decide

end Scheduling
