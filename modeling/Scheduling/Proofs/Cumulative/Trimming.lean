import Scheduling.Proofs.Disjunctive.Placement
import Scheduling.Proofs.Restoration

/-!
# Activities that were taken out

A resource forgets activities: those that are absent, and fixed ones outside the span that an earlier
run has stored. Whatever has happened since, an active activity cannot execute together with one
that was forgotten, and the forgotten ones keep within the capacity by themselves.

Results:
* `Resource.Trimmed`: there is a span that contains the active activities and that the others miss.
* `Resource.trimmed_of_run`, `Resource.lawful_trimming`: every run leaves one.
* `Resource.Retired`: what may be forgotten.
* `Resource.lacks_or_retired`: nothing else is, at every engine of a run.
-/

namespace Scheduling

/-- A variable that is fixed has its lower bound as its upper one. -/
theorem Variable.exists_ends_of_isFixed {v : Variable} {d : Domains} (fixed : v.isFixed d = .ok true) :
    ∃ value, v.lower d = .ok value ∧ v.upper d = .ok value := by
  obtain ⟨low, lower, rest⟩ := bind_eq_ok_iff.1 fixed
  obtain ⟨high, upper, last⟩ := bind_eq_ok_iff.1 rest
  have same : low = high := by simpa [pure, Except.pure] using last
  exact ⟨low, lower, same ▸ upper⟩

namespace Resource

/-! ## The span behind the active set -/

/-- There is a span that contains the active activities, and the others are done for it. This need
not be the span that is stored: a run stores a shorter one, for which some of the active activities
are done already, and they stay active until the next run. -/
def Trimmed (r : Resource) (d : Domains) (values : Table Int) : Prop :=
  ∃ (m : Nat) (s : Span), values.get? r.active.size.index = some (m : Int) ∧
    ∀ k x, r.activities.get? k = some x →
      r.active.Has m k ∧ Covered d s x ∨ ¬ r.active.Has m k ∧ isDone d s x = .ok true

variable {xs : List Activity} {c : Capacity} {r : Resource} {d d' : Domains}
  {values values' : Table Int}

theorem Trimmed.mono (h : r.Trimmed d values) (wellFormed : d.WellFormed)
    (wellFormed' : d'.WellFormed) (narrows : d.Narrows d')
    (same : values'.get? r.active.size.index = values.get? r.active.size.index) :
    r.Trimmed d' values' := by
  obtain ⟨m, s, size, shape⟩ := h
  refine ⟨m, s, same.trans size, fun k x here => ?_⟩
  rcases shape k x here with ⟨has, covered⟩ | ⟨gone, done⟩
  · exact .inl ⟨has, covered.mono narrows⟩
  · exact .inr ⟨gone, isDone_mono wellFormed wellFormed' narrows (.refl s) done⟩

/-- The order of the members does not matter. -/
theorem Trimmed.of_agrees {active : SparseSet} (h : r.Trimmed d values)
    (agrees : r.active.Agrees values active) : ({ r with active } : Resource).Trimmed d values := by
  obtain ⟨m, s, size, shape⟩ := h
  refine ⟨m, s, by rw [agrees.size]; exact size, fun k x here => ?_⟩
  rw [agrees.has m size k]
  exact shape k x here

/-- A run leaves the activities active that are not done for the span that was stored before. -/
theorem Course.trimmed {context : Context} {u u' : Store} {m m' : Nat} {s : Span}
    {active : SparseSet} {cells : Cells} {cs : List Captured} {status : Status}
    (h : Course xs c r context u m s active cells m' cs status u')
    (wellFormed : u.domains.WellFormed) (wellFormed' : u'.domains.WellFormed)
    (narrows : u.domains.Narrows u'.domains) (nodup : (context.activity :: r.cells).Nodup) :
    ({ r with active } : Resource).Trimmed u'.domains u'.cells.values := by
  refine ⟨m', s, h.left wellFormed nodup, fun k x here => ?_⟩
  by_cases has : active.Has m' k
  · refine .inl ⟨has, ?_⟩
    rcases h.captures.shape k x here with ⟨-, covered⟩ | ⟨done, -⟩
    · exact covered.mono narrows
    · rw [h.captures.fresh k x here has] at done
      cases done
  · refine .inr ⟨has, ?_⟩
    rcases h.captures.shape k x here with ⟨has', -⟩ | ⟨done, -⟩
    · exact absurd has' has
    · exact isDone_mono wellFormed wellFormed' narrows (.refl s) done

/-! ## The span is kept -/

/-- Nothing but the data of the resource, and the span behind its active set. -/
def trimming (xs : List Activity) (c : Capacity) : Guarantee where
  Accepts _ := True
  Invariant activity q d values := Standing xs c activity q d values ∧
    ∀ r, q = .resource r → r.Trimmed d values
  Allowed _ _ := True
  Watches _ _ := False

/-- Runs keep the span, also for the states of earlier checkpoints. -/
theorem lawful_trimming (xs : List Activity) (c : Capacity) : (trimming xs c).Lawful where
  invariant_mono := by
    rintro activity q d d' values values' ⟨standing, trimmed⟩ wellFormed wellFormed' narrows same
    refine ⟨standing.mono wellFormed wellFormed' narrows same, ?_⟩
    rintro r rfl
    exact (trimmed r rfl).mono wellFormed wellFormed' narrows
      (same _ (List.mem_cons_of_mem _ (by simp [Rule.cells, Resource.cells])))
  run := by
    rintro context q q' status u u' ran wellFormed nodup ⟨standing, trimmed⟩ -
    obtain ⟨standing', sizes, older, kept, -⟩ := standing_of_run ran wellFormed nodup standing
    have evolves := (Rule.evolves_of_run wellFormed ran).2
    obtain ⟨r, m, s, rfl, fits, inside, off⟩ := standing
    obtain ⟨r', rfl, lifted⟩ := Rule.lift_spec ran
    obtain ⟨active, cells, m', cs, rfl, course⟩ := course_of_run wellFormed fits nodup lifted
    refine ⟨⟨standing', ?_⟩, sizes, older, ?_, fun _ => trivial⟩
    · rintro _ ⟨⟩
      exact course.trimmed wellFormed evolves.wellFormed evolves.domains.narrows nodup
    · rintro d values ⟨before, trimmed⟩ less
      refine ⟨kept d values before less, ?_⟩
      rintro _ ⟨⟩
      obtain rfl := fits.activities
      obtain rfl := fits.capacity
      have agrees : (Rule.resource r).Agrees values (.resource { r with active }) :=
        Rule.agrees_of_run ran ⟨r, m, s, rfl, fits, inside, off⟩ less
      obtain ⟨same, -⟩ := List.forall₂_cons.1 agrees
      exact (trimmed r rfl).of_agrees same
  accepts_of_idle _ _ _ := trivial
  accepts_or_watches _ _ _ _ _ _ := .inl trivial
  accepts_of_narrows _ _ _ _ := trivial

end Resource

namespace Rule

/-- The guarantee of a propagator, which for a resource is that of its active set. -/
def trimming : Rule → Guarantee
  | .resource r => Resource.trimming r.activities.toList r.capacity
  | q => q.guarantee

theorem family_trimming : Guarantee.Family trimming where
  lawful q := by
    have other := family.lawful q
    cases q with
    | resource r => exact Resource.lawful_trimming _ _
    | _ => exact other
  allowed q _ _ := by cases q <;> trivial
  same {q q' activity d values} invariant := by
    cases q with
    | resource r =>
      obtain ⟨⟨r', m, s, rfl, fits, -, -⟩, -⟩ := invariant
      simp only [trimming, fits.activities, fits.capacity]
    | machine m =>
      obtain ⟨m', n, rfl, fits, -, -⟩ := invariant
      simp only [trimming, guarantee, fits.intervals]
    | _ =>
      have plain : q'.IsPlain := invariant
      cases q' with
      | resource r => exact plain.elim
      | machine m => exact plain.elim
      | _ => rfl
  watches x p cell v event watches := by
    cases x with
    | resource activities capacity options => exact watches.elim
    | _ => exact family.watches _ p cell v event watches
  starts x p d d' values valid wellFormed integers intervals := by
    have standing := family.starts x p d d' values valid wellFormed integers intervals
    cases x with
    | resource activities capacity options =>
      refine ⟨standing, ?_⟩
      rintro _ ⟨⟩
      refine ⟨activities.length, ⟨Width.w64.least, Width.w64.greatest⟩, ?_, fun k x here => .inl
        (Resource.has_of_blueprint (c := capacity) options valid.1 wellFormed intervals p
          ⟨values.size + 1⟩ here)⟩
      show ((1 :: _).foldl Table.push values).get? (values.size + 1) = _
      rw [Table.get?_foldl_push, if_neg (by omega), Nat.add_sub_cancel_left]
      rfl
    | _ => exact standing

end Rule

namespace Resource

/-! ## What is forgotten -/

/-- The activities whose numbers are not among those of the members. -/
def removed (r : Resource) (members : List Nat) : List Activity :=
  r.select ((List.range r.activities.size).filter (· ∉ members))

/-- Members and removed activities are all activities. -/
theorem level_eq_add_removed (r : Resource) (members : List Nat) (a : Assignment) (time : Int) :
    a.level r.activities.toList time =
      a.level (r.select ((List.range r.activities.size).filter (· ∈ members))) time +
        a.level (r.removed members) time := by
  have perm := List.filter_append_perm (fun k => decide (k ∈ members))
    (List.range r.activities.size)
  rw [← select_range, ← a.level_perm (select_perm perm) time, select_append, Assignment.level_append]
  simp only [removed, decide_not]

/-- The activity may be forgotten: it is fixed, no member can execute while it does, and as long as it
executes those that are forgotten keep within the capacity by themselves. -/
structure Retired (r : Resource) (d : Domains) (members : List Nat) (x : Activity)
    (start stop height : Int) : Prop where
  places : d.Places x.interval start stop
  lower : x.height.lower d = .ok height
  upper : x.height.upper d = .ok height
  apart : ∀ k ∈ members, ∀ y v, r.activities.get? k = some y → d.interval y.interval = .ok v →
    v.isAbsent = false → ∀ time, ¬ (start ≤ time ∧ time < stop ∧ v.startMin ≤ time ∧ time < v.endMax)
  within : ∀ time, start ≤ time → time < stop → ∀ a, d.Admits a →
    r.capacity.minimum ≤ a.level (r.removed members) time ∧
      a.level (r.removed members) time ≤ r.capacity.maximum

/-- An activity that is done is absent, or it lies at a known place outside the span. -/
theorem lacks_or_places_of_isDone {d : Domains} {s : Span} {x : Activity}
    (done : isDone d s x = .ok true) : d.Lacks x.interval ∨
      ∃ start stop height, d.Places x.interval start stop ∧ x.height.lower d = .ok height ∧
        x.height.upper d = .ok height ∧ (stop ≤ s.start ∨ s.stop ≤ start) := by
  obtain ⟨v, fixed, row, isFixed, absent | ⟨rfl, misses⟩⟩ := isDone_eq_true_iff.1 done
  · exact .inl ⟨v, row, absent⟩
  obtain ⟨v', row', absent | ⟨-, present, settled, height⟩⟩ := Activity.isFixed_eq_true_iff.1 isFixed
  · exact .inl ⟨v', row', absent⟩
  rw [row] at row'
  cases row'
  obtain ⟨value, lower, upper⟩ := Variable.exists_ends_of_isFixed height
  simp only [Bounds.isFixed, Bool.and_eq_true, beq_iff_eq] at settled
  refine .inr ⟨v.startMin, v.endMax, value, ⟨v, row, present, rfl, settled.1.symm, settled.2, rfl⟩,
    lower, upper, misses⟩

/-- At every engine of a run, what a resource has taken out of its active set is absent or may be
forgotten. -/
theorem lacks_or_retired {f : Engine Rule} {p : PropagatorId} {r : Resource} (visited : f.Visited)
    (row : f.propagators.get? p.index = some (.resource r)) :
    ∃ members, r.active.members f.store.cells = .ok members ∧ (∃ a, f.domains.Admits a) ∧
      ∀ k x, r.activities.get? k = some x → k ∉ members → f.domains.Lacks x.interval ∨
        ∃ start stop height, r.Retired f.domains members x start stop height := by
  obtain ⟨sane, covers⟩ := Guarantee.covers_of_visited Rule.family_trimming visited
  have wellFormed := sane.wellFormed_now
  obtain ⟨activity, tracked⟩ := covers p _ row
  obtain ⟨⟨_, m, s, ⟨⟩, fits, -, -⟩, trimmed⟩ :=
    tracked.invariant_now (Rule.family_trimming.lawful _) sane
  obtain ⟨m', s', size, shape⟩ := trimmed r rfl
  obtain rfl : m' = m := by
    have same := size.symm.trans fits.size
    simpa using same
  have has {k : Nat} : k ∈ r.active.elements.toList.take m' ↔ r.active.Has m' k :=
    SparseSet.mem_take_iff
  refine ⟨_, SparseSet.members_eq_ok fits.size, wellFormed.exists_admits, fun k x here gone => ?_⟩
  rw [has] at gone
  have done := ((shape k x here).resolve_left fun ⟨active, _⟩ => gone active).2
  have cleared := ((fits.shape k x here).resolve_left fun ⟨active, _⟩ => gone active).2
  refine (lacks_or_places_of_isDone done).imp_right ?_
  rintro ⟨start, stop, height, places, lower, upper, misses⟩
  -- Active activities lie within the span, and the given one outside of it.
  have covered {k : Nat} {y : Activity} (mem : k ∈ r.active.elements.toList.take m')
      (here : r.activities.get? k = some y) : Covered f.domains s' y :=
    ((shape k y here).resolve_right fun ⟨left, _⟩ => left (has.1 mem)).2
  refine ⟨start, stop, height, places, lower, upper, fun k mem y v here row _ time meets => ?_,
    fun time le lt a admits => ?_⟩
  · obtain ⟨v', row', first, last⟩ := covered mem here
    rw [row] at row'
    cases row'
    omega
  · have level := cleared a admits time (by
      rw [admits.interval_eq_of_places places]
      simp only [IntervalValue.executesAt, Bool.and_eq_true, decide_eq_true_eq]
      omega)
    rw [← fits.activities, level_eq_add_removed r (r.active.elements.toList.take m'),
      Assignment.level_eq_zero, Int.zero_add, ← fits.capacity] at level
    · exact level
    · intro y mem executes
      obtain ⟨k, mem, here⟩ := mem_select_iff.1 mem
      have active : k ∈ r.active.elements.toList.take m' := by simpa using (List.mem_filter.1 mem).2
      have := (covered active here).within admits executes
      omega

/-- A multiple of a constant height. -/
def load (scale : Int) : Variable := .affine (.plain ⟨0⟩) ⟨scale, 0⟩

/-- Two fixed activities, of which the second one makes up for a part of the first one, and one that
starts after them. -/
def loads : List Activity := [⟨⟨0⟩, load 2⟩, ⟨⟨1⟩, load (-1)⟩, ⟨⟨2⟩, load 1⟩]

/-- The two fixed activities leave the active set when the third one is decided on. -/
def trimmedState : State :=
  .reach [.newInteger 1 1, .newInterval ⟨0, 0, 5, 5, 5, 5⟩ .present,
    .newInterval ⟨0, 0, 5, 5, 5, 5⟩ .present, .newInterval ⟨10, 20, 15, 25, 5, 5⟩ .present,
    .post (.resource loads ⟨Capacity.unlimitedMinimum, 1⟩ .all),
    .decide (.update ⟨2⟩ (.bound .startMin 11))]

/-- The resource with the third activity in front. -/
def trimmedResource : Resource :=
  { (blueprint loads ⟨Capacity.unlimitedMinimum, 1⟩ .all).build ⟨0⟩ ⟨1⟩ with
    active := ⟨⟨#[2, 0, 1]⟩, ⟨#[1, 2, 0]⟩, ⟨1⟩⟩ }

theorem lacks_or_retired_compensated :
    trimmedState.solver.engine.propagators.get? 0 = some (.resource trimmedResource) ∧
      ∀ k x, k < 2 → trimmedResource.activities.get? k = some x → ∃ start stop height,
        trimmedResource.Retired trimmedState.solver.engine.domains [2] x start stop height := by
  have found : (trimmedState.solver.engine.propagators.get? 0,
      trimmedResource.active.members trimmedState.solver.engine.store.cells,
      [0, 1].map fun i => trimmedState.solver.engine.domains.interval ⟨i⟩) =
        (some (.resource trimmedResource), .ok [2], [.ok ⟨⟨0, 0, 5, 5, 5, 5⟩, .present⟩,
          .ok ⟨⟨0, 0, 5, 5, 5, 5⟩, .present⟩]) := by cbv
  simp only [Prod.mk.injEq, List.map_cons, List.map_nil, List.cons.injEq] at found
  obtain ⟨row, known, first, second, -⟩ := found
  refine ⟨row, fun k x lt here => ?_⟩
  have visited : trimmedState.solver.engine.Visited := .rest (reachable_reach _).accessible
  obtain ⟨members, known', -, forgotten⟩ := lacks_or_retired (p := ⟨0⟩) visited row
  obtain rfl := Except.ok.inj (known.symm.trans known')
  refine (forgotten k x here (by simp only [List.mem_singleton]; omega)).resolve_left ?_
  rintro ⟨v, row', absent⟩
  obtain rfl | rfl : k = 0 ∨ k = 1 := by omega
  · cases here
    cases first.symm.trans row'
    cases absent
  · cases here
    cases second.symm.trans row'
    cases absent

end Resource

end Scheduling
