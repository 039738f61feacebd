import Scheduling.Proofs.Cumulative.Words
import Scheduling.Proofs.Faultless
import Scheduling.Proofs.Staying

/-!
# A resource does not fault

A run of a resource may end with an inconsistency, but it does not fault, as long as the bounds of
all heights can be computed. They can be computed in all narrower domains as well, so this has to be
known of one state only, and holds until the search returns below its checkpoint. A height is
restricted to bounds between those it has, which can be mapped back through its views.

Results:
* `TimeTable.Tested.completes_filter`: filtering an activity completes.
* `Resource.exists_completed`: a run of a resource completes.
* `Cumulative.call_completes`: so does every call in a run of a solver.
* `Cumulative.exists_call_faults`: after a return below the checkpoint a call can fault.
-/

namespace Scheduling

open Propagation

/-! ## Filtering an activity -/

namespace TimeTable.Tested

variable {t : TimeTable} {cs : List Captured} {c : Captured} {s s₀ : Store}

section Height

variable (captured : c.activity.bounds s₀.domains = .ok c.bounds)
  (wellFormed : s₀.domains.WellFormed) (shrinks : s₀.Shrinks s)
include captured shrinks

/-- A bound of the interval is moved. -/
theorem completes_tighten (which : Bound) (value : Int) :
    Completes (tighten c.activity.interval which value) s fun _ s' => s₀.Shrinks s' := by
  obtain ⟨v, row, -⟩ := Activity.bounds_eq_ok captured
  exact completes_update_of_shrinks shrinks row (.bound which value)

include wellFormed

/-- The bounds of the height can still be computed. -/
theorem exists_ends : ∃ low high, c.activity.height.lower s.domains = .ok low ∧
    c.activity.height.upper s.domains = .ok high := by
  obtain ⟨v, row, -, lower, upper, -⟩ := Activity.bounds_eq_ok captured
  exact shrinks.narrows.exists_ends wellFormed shrinks.wellFormed lower upper

theorem completes_restrict_height (range : Load) :
    Completes (restrict c.activity.height range) s fun _ s' => s₀.Shrinks s' := by
  obtain ⟨low, high, lower, upper⟩ := exists_ends captured wellFormed shrinks
  exact completes_restrict shrinks lower upper range

end Height

variable (h : t.Tested cs) (mem : c ∈ cs)
  (captured : c.activity.bounds s₀.domains = .ok c.bounds) (wellFormed : s₀.domains.WellFormed)
include h mem captured wellFormed

theorem completes_tightenHeight (shrinks : s₀.Shrinks s) {k : Nat} {q : TimePoint} {stop : Int}
    (stretch : t.profile.Stretch k q stop) {others : Load}
    (without : t.loadWithout c.bounds k = .ok others) :
    Completes (t.tightenHeight c.activity others) s fun _ s' => s₀.Shrinks s' := by
  obtain ⟨_, without', allowed, left⟩ := h.exists_allowedHeights mem stretch
  obtain rfl := Except.ok.inj (without.symm.trans without')
  exact completes_liftM_bind left (completes_restrict_height captured wellFormed shrinks allowed)

theorem completes_force (shrinks : s₀.Shrinks s) {k : Nat} {q : TimePoint} {stop : Int}
    (stretch : t.profile.Stretch k q stop) {others : Load}
    (without : t.loadWithout c.bounds k = .ok others) :
    Completes (t.force c.activity q.time stop others) s fun _ s' => s₀.Shrinks s' := by
  obtain ⟨v, row, -⟩ := Activity.bounds_eq_ok captured
  refine completes_bind (completes_say (Q := fun _ s' => s₀.Shrinks s') (shrinks.say _))
    fun _ s₁ shrinks => ?_
  refine completes_bind (completes_update_of_shrinks shrinks row .present) fun _ s₂ shrinks => ?_
  refine completes_bind (completes_tighten captured shrinks _ _) fun _ s₃ shrinks => ?_
  refine completes_bind (completes_tighten captured shrinks _ _) fun _ s₄ shrinks => ?_
  exact h.completes_tightenHeight mem captured wellFormed shrinks stretch without

theorem completes_coverFrom {rules : Rules} {left k : Nat} (within : k + left ≤ t.profile.segments)
    (shrinks : s₀.Shrinks s) :
    Completes (t.coverFrom c rules left k) s fun _ s' => s₀.Shrinks s' := by
  induction left generalizing k s with
  | zero => exact completes_pure shrinks
  | succ left ih =>
    obtain ⟨q, stop, stretch⟩ := Profile.exists_stretch h.represents.ascending
      (show k < t.profile.segments by omega)
    obtain ⟨others, without, -⟩ := h.exists_allowedHeights mem stretch
    unfold coverFrom
    refine completes_liftM_bind stretch.span ?_
    simp only
    split
    · exact completes_pure shrinks
    refine completes_liftM_bind stretch.point (completes_liftM_bind without ?_)
    have rest (s' : Store) (shrinks : s₀.Shrinks s') :
        Completes (t.coverFrom c rules left (k + 1)) s' fun _ s'' => s₀.Shrinks s'' :=
      ih (by omega) shrinks
    split
    · exact completes_when
        (fun _ => h.completes_tightenHeight mem captured wellFormed shrinks stretch without)
        (fun _ => shrinks) rest
    · exact completes_when
        (fun _ => h.completes_force mem captured wellFormed shrinks stretch without)
        (fun _ => shrinks) rest

theorem completes_cover {rules : Rules} (shrinks : s₀.Shrinks s) :
    Completes (t.cover c rules) s fun _ s' => s₀.Shrinks s' := by
  have := t.profile.segmentContaining_le c.bounds.startMin
  exact h.completes_coverFrom mem captured wellFormed (by omega) shrinks

section Room

variable (room : c.bounds.startMin < c.bounds.endMax)
include room

omit wellFormed in
theorem completes_place (shrinks : s₀.Shrinks s) :
    Completes (t.place c) s fun _ s' => s₀.Shrinks s' := by
  obtain ⟨⟨start, first, -⟩, ⟨stop, last, -⟩, -⟩ := h.inWords mem room
  refine completes_liftM_bind first (completes_when
    (fun _ => completes_tighten captured shrinks _ _) (fun _ => shrinks) fun s' shrinks =>
      completes_liftM_bind last ?_)
  split
  · exact completes_tighten captured shrinks _ _
  · exact completes_pure shrinks

/-- The window of the fit lies within the bounds that were captured. -/
theorem completes_fit (shrinks : s₀.Shrinks s) :
    Completes (t.fit c) s fun _ s' => s₀.Shrinks s' := by
  obtain ⟨v₀, row₀, same, -⟩ := Activity.bounds_eq_ok captured
  obtain ⟨v, row, narrows⟩ := shrinks.narrows.interval _ v₀ row₀
  obtain ⟨low, high, lower, upper⟩ := exists_ends captured wellFormed shrinks
  have tightens := narrows.tightens
  rw [← same] at tightens
  unfold fit
  refine completes_inspect_bind row (completes_inspect_bind lower (completes_inspect_bind upper ?_))
  split
  · exact completes_pure shrinks
  rename_i opened
  obtain ⟨f, fits, -⟩ := (h.inWords mem room).fit v.startMin v.endMax low high
    tightens.startMin_le (by omega) tightens.le_endMax
  have said {x : Propagation Unit} (rest : ∀ s', s₀.Shrinks s' →
      Completes x s' fun _ s'' => s₀.Shrinks s'') : Completes (do
        say (.fitsAtMost c.activity.interval f.longest)
        tighten c.activity.interval .lengthMax (Width.w32.saturate f.longest)
        x) s fun _ s' => s₀.Shrinks s' :=
    completes_bind (completes_say (Q := fun _ s' => s₀.Shrinks s') (shrinks.say _))
      fun _ s₁ shrinks => completes_bind (completes_tighten captured shrinks _ _) fun _ => rest
  refine completes_liftM_bind fits ?_
  cases f.heights with
  | none =>
    simp only
    split
    · exact said fun _ shrinks => completes_pure shrinks
    · exact completes_pure shrinks
  | some heights =>
    simp only
    split
    · exact said fun _ shrinks => completes_restrict_height captured wellFormed shrinks heights
    · exact completes_restrict_height captured wellFormed shrinks heights

end Room

/-- Filtering an activity completes. -/
theorem completes_filter {rules : Rules} (shrinks : s₀.Shrinks s) :
    Completes (t.filter rules c) s fun _ s' => s₀.Shrinks s' := by
  obtain ⟨v₀, row₀, -⟩ := Activity.bounds_eq_ok captured
  unfold filter
  split
  · exact completes_pure shrinks
  rename_i opened
  have room : c.bounds.startMin < c.bounds.endMax := by omega
  refine completes_bind (h.completes_place mem captured room shrinks) fun _ s₁ shrinks => ?_
  obtain ⟨v, row, -⟩ := shrinks.narrows.interval _ v₀ row₀
  refine completes_inspect_bind row ?_
  split
  · exact completes_say (shrinks.say _)
  refine completes_when (fun _ => h.completes_cover mem captured wellFormed shrinks)
    (fun _ => shrinks) fun s₂ shrinks => ?_
  split
  · obtain ⟨v, row, -⟩ := shrinks.narrows.interval _ v₀ row₀
    refine completes_inspect_bind row ?_
    split
    · exact h.completes_fit mem captured wellFormed room shrinks
    · exact completes_pure shrinks
  · exact completes_pure shrinks

end TimeTable.Tested

/-! ## Runs of a resource -/

namespace Resource

variable {xs : List Activity} {c : Capacity} {r : Resource} {m : Nat} {s : Span}
  {cs : List Captured} {context : Context} {u : Store}

/-- The numbers that a run computes with the captured activities fit their words: those of the
profile, and if this passes the test, those of all rules. -/
structure InWords (r : Resource) (cs : List Captured) : Prop where
  changes : Profile.ChangesFit (cs.map Captured.bounds)
  rules : ∀ profile, Profile.build (cs.map Captured.bounds) = .ok profile →
    profile.isConsistent r.capacity.minimum r.capacity.maximum = true →
    ∀ c ∈ cs, c.bounds.startMin < c.bounds.endMax →
      TimeTable.InWords ⟨profile, r.capacity⟩ c.bounds

theorem completes_switchOff (inside : context.activity.index < u.cells.values.size) :
    Completes (setActive context false) u fun _ _ => True :=
  completes_writeCell inside fun _ _ => trivial

section Captures

variable (wellFormed : u.domains.WellFormed) (few : xs.length < 2 ^ 30)
  (h : Captures xs c r u.domains u.cells.values m s cs)
include wellFormed few h

theorem tested (accepted : r.capacity.Accepted) {profile : Profile}
    (made : Profile.build (cs.map Captured.bounds) = .ok profile)
    (consistent : profile.isConsistent r.capacity.minimum r.capacity.maximum = true) :
    TimeTable.Tested ⟨profile, r.capacity⟩ cs := by
  obtain ⟨a, admits⟩ := wellFormed.exists_admits
  exact TimeTable.tested_of_build (h.allows wellFormed admits) (h.length_lt few) accepted made consistent

theorem inWords (accepted : r.capacity.Accepted) : r.InWords cs := by
  exact ⟨Profile.changesFit (h.heightsHold wellFormed) (by simpa using h.length_lt few),
    fun profile made consistent c mem room =>
      (tested wellFormed few h accepted made consistent).inWords mem room⟩

variable (accepted : r.capacity.Accepted) (inside : context.activity.index < u.cells.values.size)
include accepted inside

theorem completes_filter : Completes (r.filter context cs) u fun _ _ => True := by
  obtain ⟨profile, made⟩ := h.exists_build wellFormed few
  refine completes_liftM_bind made (completes_when
    (Q := fun s' => s' = u ∧ profile.isConsistent r.capacity.minimum r.capacity.maximum = true)
    (fun _ => completes_throw) (fun passes => ⟨rfl, by simpa using passes⟩) ?_)
  rintro _ ⟨rfl, consistent⟩
  have tested := tested wellFormed few h accepted made consistent
  split
  · exact completes_switchOff inside
  refine completes_bind (completes_forM (Store.Shrinks.refl wellFormed) fun b mem t shrinks => ?_)
    fun _ t shrinks => ?_
  · have mem := (List.mem_filter.1 mem).1
    obtain ⟨k, -, -, known⟩ := h.exists_key mem
    exact tested.completes_filter mem known wellFormed shrinks
  · have start : r.spanStart.index < t.cells.values.size := by
      rw [shrinks.cells]
      exact Table.lt_size_of_get? h.start
    have stop : r.spanStop.index < t.cells.values.size := by
      rw [shrinks.cells]
      exact Table.lt_size_of_get? h.stop
    refine completes_bind (completes_writeCell (Q := fun _ s' =>
      r.spanStop.index < s'.cells.values.size) start fun cells assigned => ?_)
      fun _ s' stop => completes_writeCell stop fun _ _ => trivial
    rw [(Cells.evolves_of_assign assigned).size]
    exact stop

theorem completes_propagate (captured : r.capture.exec u = .ok (.ok cs, u)) :
    Completes (r.propagate context) u fun _ _ => True := by
  refine completes_bind (Q := fun cs' s' => cs' = cs ∧ s' = u)
    ⟨_, u, captured, by rintro _ ⟨⟩; exact ⟨rfl, rfl⟩⟩ ?_
  rintro _ _ ⟨rfl, rfl⟩
  split
  · exact completes_switchOff inside
  split
  · exact completes_bind (completes_say (Q := fun _ s' => context.activity.index <
      s'.cells.values.size) inside) fun _ _ inside => completes_switchOff inside
  · exact completes_filter wellFormed few h accepted inside

end Captures

/-- A run completes, and what it computes fits its words. -/
theorem exists_completed (wellFormed : u.domains.WellFormed) (few : xs.length < 2 ^ 30)
    (accepted : r.capacity.Accepted) (fits : Fits xs c r u.domains u.cells.values m s)
    (evaluates : ∀ x ∈ xs, x.Evaluates u.domains) (nodup : (context.activity :: r.cells).Nodup)
    (inside : context.activity.index < u.cells.values.size) :
    ∃ r' t cs status u', r.Begins u r' t cs ∧ r.InWords cs ∧
      (run context r).run u = .ok ((r', status), u') := by
  obtain ⟨⟨active, cells⟩, swept⟩ := SparseSet.exists_sweep fits.valid fits.size fits.le
    (Nat.le_refl m) fun _ lt => exists_isDone fits evaluates lt
  obtain ⟨-, evolves, m', -, fits', fresh, -⟩ :=
    fits_of_sweep fits rfl (List.nodup_cons.1 nodup).2 swept
  have dropped : (dropDone s m r).run u = .ok ({ r with active }, { u with cells }) := by
    rw [dropDone_eq_sweep, swept]
    rfl
  obtain ⟨cs, t, captured, rfl, pairs⟩ := returns_capture (u := { u with cells }) fits'.size
    fun _ => exists_captured fits' evaluates
  have h : Captures xs c { r with active } u.domains cells.values m' s cs :=
    { fits' with fresh, captured := pairs }
  obtain ⟨status, u', propagated, -⟩ := completes_propagate (u := { u with cells }) wellFormed few h
    accepted (by rw [evolves.size]; exact inside) captured
  have words := inWords (u := { u with cells }) wellFormed few h accepted
  exact ⟨_, _, cs, status, u', ⟨⟨s.start, s.stop, m, Cells.read_eq_ok_iff.2 fits.start,
    Cells.read_eq_ok_iff.2 fits.stop, SparseSet.length_eq_ok fits.size, dropped⟩, captured⟩,
    ⟨words.changes, words.rules⟩, run_of_dropDone fits dropped propagated⟩

end Resource

/-! ## All calls of a run -/

theorem Activity.Evaluates.narrows {x : Activity} {d d' : Domains} (h : x.Evaluates d)
    (narrows : d.Narrows d') (wellFormed : d.WellFormed) (wellFormed' : d'.WellFormed) :
    x.Evaluates d' := by
  obtain ⟨⟨low, lower⟩, high, upper⟩ := h
  obtain ⟨low', high', lower', upper'⟩ := narrows.exists_ends wellFormed wellFormed' lower upper
  exact ⟨⟨low', lower'⟩, high', upper'⟩

namespace Cumulative

/-- Suppose that the bounds of all heights of a cumulative constraint can be computed in some state.
As long as the search does not return below its checkpoint, no call of the resource of the
constraint faults, and all numbers that are computed fit their words. -/
theorem call_completes {k : Cumulative} {c₀ c : State} {op : Operation} {p : PropagatorId}
    {f : Engine Rule} {r : Resource} (accessible : Accessible c₀)
    (stays : StaysAbove c₀.solver.engine.domains.depth c₀ c) (valid : op.Valid c.solver)
    (calls : op.Calls c.solver p f) (row : f.propagators.get? p.index = some (.resource r))
    (activities : r.activities.toList = k.activities)
    (accepted : capacity k.minimum k.maximum = .ok r.capacity)
    (words : ∀ m, k.minimum = some m → Width.w64.Holds m) (few : k.activities.length < 2 ^ 30)
    (evaluates : ∀ x ∈ k.activities, x.Evaluates c₀.solver.domains) :
    ∃ r' t cs status f', r.Begins f.store r' t cs ∧ r.InWords cs ∧
      f.call p = .ok (status, f') := by
  obtain ⟨sane, covers⟩ := Guarantee.covers_of_visited Rule.family
    (.call (accessible.trans stays.freeRuns) valid calls)
  obtain ⟨activity, tracked⟩ := covers p _ row
  have wellFormed := sane.wellFormed_now
  have narrows := stays.narrows_of_calls accessible calls
  have known (x : Activity) (mem : x ∈ k.activities) : x.Evaluates f.domains :=
    (evaluates x mem).narrows narrows (sane_of_accessible accessible).wellFormed_now wellFormed
  obtain ⟨_, m, s, same, fits, inside, -⟩ := tracked.invariant_now (Rule.family.lawful _) sane
  cases same
  have nodup := sane.owned_nodup p
  rw [tracked.owned_eq] at nodup
  rw [← activities] at few known
  obtain ⟨r', t, cs, status, u', begins, inWords, ran⟩ : ∃ r' t cs status u',
      r.Begins f.store r' t cs ∧ r.InWords cs ∧
        (Resource.run ⟨p, activity⟩ r).run f.store = .ok ((r', status), u') :=
    Resource.exists_completed wellFormed few (accepted_of_capacity words accepted) fits known nodup
      inside
  exact ⟨r', t, cs, status, _, begins, inWords,
    Engine.call_of_run tracked.here row (Rule.lift_of_run ran)⟩

/-! ## A height that is lifted close to the greatest word -/

/-- The level of a single activity, of a height between `2147483646` and the greatest word if the
variable underneath is at most `1`. -/
def liftedConstraint : Cumulative :=
  ⟨[⟨⟨0⟩, .affine (.plain ⟨0⟩) ⟨1, 2147483646⟩⟩], none, some 3000000000, .all, false⟩

/-- The variable was between `0` and `5`, and is at most `1` since the first checkpoint. -/
def liftedStart : State :=
  .reach [.newInteger 0 5, .newInterval ⟨0, 0, 5, 5, 5, 5⟩ .present, .checkpoint,
    .decide (.setBound (.plain ⟨0⟩) .upper 1)]

def liftedResource : Resource :=
  (Resource.blueprint liftedConstraint.activities ⟨Capacity.unlimitedMinimum, 3000000000⟩
    .all).build ⟨0⟩ ⟨1⟩

/-- The resource of the constraint is posted. -/
def liftedPosting : Operation :=
  .post (.resource liftedConstraint.activities liftedResource.capacity .all)

def liftedPosted : State := liftedStart.follow [liftedPosting]

/-- The engine on which the resource is called once the variable is at most `0`. -/
def liftedCalled : Engine Rule :=
  (Operation.decide (.setBound (.plain ⟨0⟩) .upper 0)).called liftedPosted.solver

theorem evaluates_lifted :
    ∀ x ∈ liftedConstraint.activities, x.Evaluates liftedStart.solver.domains := by
  have ends : liftedConstraint.activities.map (fun x => (x.height.lower liftedStart.solver.domains,
      x.height.upper liftedStart.solver.domains)) = [(.ok 2147483646, .ok 2147483647)] := by cbv
  simp only [liftedConstraint, List.map_cons, List.map_nil, List.cons.injEq, Prod.mk.injEq,
    and_true] at ends
  simp only [liftedConstraint, List.mem_singleton, forall_eq]
  exact ⟨⟨_, ends.1⟩, _, ends.2⟩

/-- The resource is posted above the first checkpoint. -/
theorem staysAbove_lifted :
    StaysAbove liftedStart.solver.engine.domains.depth liftedStart liftedPosted := by
  have step : Step liftedPosting liftedStart liftedPosted := step_follow (by cbv)
  have depth : (liftedStart.solver.engine.domains.depth, liftedPosted.solver.engine.domains.depth) =
      (1, 1) := by cbv
  simp only [Prod.mk.injEq] at depth
  exact .next .refl step.valid step.ran (by rw [depth.1, depth.2])

theorem call_completes_lifted : ∃ r' t cs status f',
    liftedResource.Begins liftedCalled.store r' t cs ∧ liftedResource.InWords cs ∧
      liftedCalled.call ⟨0⟩ = .ok (status, f') := by
  have called : (((Operation.decide (.setBound (.plain ⟨0⟩) .upper 0)).caller?
      liftedPosted.solver).map Prod.fst, liftedCalled.propagators.get? 0) =
        (some ⟨0⟩, some (.resource liftedResource)) := by cbv
  simp only [Prod.mk.injEq] at called
  exact call_completes (k := liftedConstraint) (reachable_reach _).accessible staysAbove_lifted
    (show (Operation.decide _).Valid liftedPosted.solver from trivial)
    (Operation.calls_of_caller? called.1) called.2 rfl rfl (by simp [liftedConstraint]) (by decide)
    evaluates_lifted

/-- The search returns to the beginning, where the variable could be up to `5`. -/
def liftedReturned : State := liftedPosted.follow [.undoTo 0]

/-- The engine on which the resource is called once the variable is at most `4`. -/
def liftedAgain : Engine Rule :=
  (Operation.decide (.setBound (.plain ⟨0⟩) .upper 4)).called liftedReturned.solver

/-- Below the checkpoint above which it was posted, the height can no longer be computed. -/
theorem exists_call_faults : ∃ (k : Cumulative) (c₀ c₁ c : State) (op : Operation)
    (p : PropagatorId) (f : Engine Rule) (r : Resource), Reachable c₀ ∧
    (∀ x ∈ k.activities, x.Evaluates c₀.solver.domains) ∧ k.activities.length < 2 ^ 30 ∧
    (∀ m, k.minimum = some m → Width.w64.Holds m) ∧
    capacity k.minimum k.maximum = .ok r.capacity ∧
    Step (.post (.resource k.activities r.capacity k.options)) c₀ c₁ ∧ Runs c₁ c ∧ Reachable c ∧
    op.Valid c.solver ∧ op.Calls c.solver p f ∧ f.propagators.get? p.index = some (.resource r) ∧
    r.activities.toList = k.activities ∧ f.call p = .error .additionOverflow := by
  have called : (((Operation.decide (.setBound (.plain ⟨0⟩) .upper 4)).caller?
      liftedReturned.solver).map Prod.fst, liftedAgain.propagators.get? 0,
      (liftedAgain.call ⟨0⟩).map Prod.fst) =
        (some ⟨0⟩, some (.resource liftedResource), .error .additionOverflow) := by cbv
  simp only [Prod.mk.injEq] at called
  obtain ⟨first, row, faults⟩ := called
  have step : Step liftedPosting liftedStart liftedPosted := step_follow (by cbv)
  have returned : Runs liftedPosted liftedReturned := runs_follow _ _
  have reachable : Reachable liftedStart := reachable_reach _
  refine ⟨liftedConstraint, liftedStart, liftedPosted, liftedReturned, _, ⟨0⟩, liftedAgain,
    liftedResource, reachable, evaluates_lifted, by decide, by simp [liftedConstraint], rfl, step,
    returned, (reachable.trans (runs_follow _ _)).trans returned,
    show (Operation.decide _).Valid liftedReturned.solver from trivial,
    Operation.calls_of_caller? first, row, rfl, ?_⟩
  cases ran : liftedAgain.call ⟨0⟩ with
  | error fault => simpa [ran, Except.map] using faults
  | ok answer => simp [ran, Except.map] at faults

end Cumulative

end Scheduling
