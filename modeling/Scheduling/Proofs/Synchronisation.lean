import Scheduling.Proofs.Disjunctive.Placement
import Scheduling.Proofs.Posting

/-!
# Synchronised intervals follow their source

A synchronisation ties a target to an endpoint of a source: once both intervals are resolved, either
both are absent, or both are present and the target starts at the endpoint. It is switched off only
when both are absent. The interval behind the step of a usage function is such a target, and it ends
at the horizon.

Results:
* `Synchronisation.follows_of_propagate`: a run that succeeds finds its intervals tied.
* `Synchronisation.guarantee`, `Synchronisation.lawful`: the guarantee, and that a synchronisation
  gives it.
* `Synchronisation.exists_steps_of_newSynchronisedInterval`: the steps that make a synchronised interval.
* `Synchronisation.keeps_of_newSynchronisedInterval`: from then on it follows its source.
-/

namespace Scheduling

open Propagation

/-! ## Intervals whose values are known -/

namespace Domains

/-- The interval is absent, or present with a known start and end. -/
def Resolves (d : Domains) (i : IntervalId) : Prop :=
  d.Lacks i ∨ ∃ start stop, d.Places i start stop

variable {d d' : Domains} {i : IntervalId}

theorem Resolves.mono (h : d.Resolves i) (wellFormed' : d'.WellFormed) (narrows : d.Narrows d') :
    d'.Resolves i := by
  rcases h with lacks | ⟨start, stop, placed⟩
  · exact .inl (lacks.mono narrows)
  · exact .inr ⟨start, stop, placed.mono wellFormed' narrows⟩

/-- The row of an interval is as it was, unless an event says that it changed. -/
theorem interval_eq_or_reported {events : List (Watched × Event)} (narrows : d.Narrows d')
    (reports : d.Reports d' events) (known : i.index < d.intervals.size) :
    d'.interval i = d.interval i ∨ ∃ e ∈ EventSet.anyInterval, (.interval i, e) ∈ events := by
  obtain ⟨v, found⟩ := Table.exists_get? known
  have row : d.interval i = .ok v := interval_eq_ok_iff.2 found
  obtain ⟨v', row', -⟩ := narrows.interval i v row
  by_cases same : v' = v
  · left
    rw [row, row', same]
  · exact .inr (reports.interval i v v' row row' same)

end Domains

/-- The time of an endpoint of an interval from `start` to `stop`. -/
def Endpoint.time (e : Endpoint) (start stop : Int) : Int :=
  match e with
  | .start => start
  | .stop => stop

namespace Synchronisation

/-- Once both intervals are resolved, they are both absent, or both are present and the target starts
at the endpoint of the source. -/
def Follows (p : Synchronisation) (d : Domains) : Prop :=
  d.Resolves p.source → d.Resolves p.target →
    d.Lacks p.source ∧ d.Lacks p.target ∨ ∃ start stop stop', d.Places p.source start stop ∧
      d.Places p.target (p.point.time start stop) stop'

/-! ## What a run does -/

section Run

variable {p : Synchronisation} {s s' : Store}

/-- A known presence is imposed on the second interval. -/
theorem copyPresence_spec {i j : IntervalId} (wellFormed : s.domains.WellFormed)
    (ran : (copyPresence i j).exec s = .ok (.ok (), s')) :
    s.Evolves [] s' ∧ ∃ v, s.domains.interval i = .ok v ∧
      (v.presence = .absent → s'.domains.Lacks j) ∧
      (v.presence = .present →
        ∃ w, s'.domains.interval j = .ok w ∧ w.isPresent = true) ∧
      (v.presence = .optional → s' = s) := by
  refine ⟨(performs_copyPresence i j).evolves _ _ _ wellFormed ran, ?_⟩
  obtain ⟨v, row, ran⟩ := exec_inspect_bind_eq_ok_iff.1 ran
  refine ⟨v, row, ?_⟩
  cases presence : v.presence <;> simp only [presence] at ran
  · obtain ⟨d, updated, rfl⟩ := exec_change_eq_ok_iff.1 ran
    obtain ⟨old, new, -, after, rows, -⟩ := Domains.interval_of_update updated
    refine ⟨by simp, fun _ => ⟨new, ?_, Interval.isPresent_of_update?_present after⟩, by simp⟩
    rw [rows, if_pos rfl]
  · obtain ⟨d, updated, rfl⟩ := exec_change_eq_ok_iff.1 ran
    obtain ⟨old, new, -, after, rows, -⟩ := Domains.interval_of_update updated
    refine ⟨fun _ => ⟨new, ?_, Interval.isAbsent_of_update?_absent after⟩, by simp, by simp⟩
    rw [rows, if_pos rfl]
  · cases ran
    exact ⟨by simp, by simp, fun _ => rfl⟩

/-- The two steps of making the presences agree. -/
theorem agree_spec (wellFormed : s.domains.WellFormed) (ran : p.agree.exec s = .ok (.ok (), s')) :
    s.Evolves [] s' ∧ (s.domains.Lacks p.source → s'.domains.Lacks p.target) ∧
      (s.domains.Lacks p.target → s'.domains.Lacks p.source) ∧
      (s'.domains.Lacks p.source → s'.domains.Lacks p.target) := by
  obtain ⟨⟨⟩, t, first, second⟩ := exec_bind_succeeds_iff.1 ran
  obtain ⟨evolves, v, row, absent, present, optional⟩ := copyPresence_spec wellFormed first
  obtain ⟨evolves', w, row', absent', present', optional'⟩ :=
    copyPresence_spec evolves.wellFormed second
  have narrows := evolves.domains.narrows
  have narrows' := evolves'.domains.narrows
  refine ⟨evolves.trans evolves', fun ⟨u, found, lacks⟩ => ?_, fun lacks => ?_,
    fun ⟨u, found, lacks⟩ => ?_⟩
  · rw [row] at found
    cases found
    exact (absent (by simpa [Interval.isAbsent] using lacks)).mono narrows'
  · obtain ⟨u, found, lacks⟩ := lacks.mono narrows
    rw [row'] at found
    cases found
    exact absent' (by simpa [Interval.isAbsent] using lacks)
  · simp only [Interval.isAbsent, beq_iff_eq] at lacks
    cases known : v.presence with
    | absent => exact (absent known).mono narrows'
    | present =>
      obtain ⟨u', found', narrower⟩ := (narrows.trans narrows').interval _ v row
      rw [found] at found'
      cases found'
      have := narrower.isPresent (by simp [Interval.isPresent, known])
      simp [Interval.isPresent, lacks] at this
    | optional =>
      have same := optional known
      subst same
      cases known' : w.presence with
      | absent => exact Domains.Lacks.mono ⟨w, row', by simp [Interval.isAbsent, known']⟩ narrows'
      | present =>
        obtain ⟨u', found', there⟩ := present' known'
        rw [found] at found'
        cases found'
        simp [Interval.isPresent, lacks] at there
      | optional =>
        have same := optional' known'
        subst same
        rw [row] at found
        cases found
        simp [known] at lacks

/-- A run writes no cell, or it switches the synchronisation off because both intervals are absent. -/
theorem propagate_cases {context : Context} {status : Status} (wellFormed : s.domains.WellFormed)
    (ran : (p.propagate context).exec s = .ok (status, s')) :
    s.Evolves [] s' ∨ s'.domains.Lacks p.source ∧ s'.domains.Lacks p.target := by
  rcases exec_bind_eq_ok_iff.1 ran with ⟨_, t, agreed, rest⟩ | ⟨cause, failed, -⟩
  swap
  · exact .inl (p.performs_agree.evolves _ _ _ wellFormed failed)
  obtain ⟨evolves, -, -, both⟩ := agree_spec wellFormed agreed
  obtain ⟨v, row, rest⟩ := exec_inspect_bind_eq_ok_iff.1 rest
  split at rest
  · rename_i absent
    obtain ⟨-, domains, -, -⟩ := writeCell_spec rest
    rw [domains]
    exact .inr ⟨⟨v, row, absent⟩, both ⟨v, row, absent⟩⟩
  · refine .inl (evolves.trans ((show Evolves [] _ from ?_) t _ s' evolves.wellFormed rest))
    refine Performs.evolves (performs_bind (performs_tighten _ _ _) fun _ => ?_)
    refine performs_bind (performs_tighten _ _ _) fun _ => performs_bind (performs_inspect _) fun _ => ?_
    refine performs_bind (performs_tighten _ _ _) fun _ => ?_
    exact performs_bind (performs_tighten _ _ _) fun _ => p.performs_agree

/-- Placed intervals have the start that a run imposes. -/
theorem start_eq_of_propagate {context : Context} (wellFormed : s.domains.WellFormed)
    (ran : (p.propagate context).exec s = .ok (.ok (), s')) {start stop start' stop' : Int}
    (placed : s.domains.Places p.source start stop)
    (placed' : s.domains.Places p.target start' stop') : start' = p.point.time start stop := by
  obtain ⟨⟨⟩, t, agreed, rest⟩ := exec_bind_succeeds_iff.1 ran
  obtain ⟨evolves, -, -, -⟩ := agree_spec wellFormed agreed
  obtain ⟨v, row, rest⟩ := exec_inspect_bind_eq_ok_iff.1 rest
  obtain ⟨v', row', present, v1, v2, v3, v4⟩ :=
    placed.mono evolves.wellFormed evolves.domains.narrows
  rw [row] at row'
  cases row'
  split at rest
  · rename_i absent
    simp [Interval.isAbsent_eq_false present] at absent
  · obtain ⟨⟨⟩, u, low, rest⟩ := exec_bind_succeeds_iff.1 rest
    obtain ⟨⟨⟩, w, high, -⟩ := exec_bind_succeeds_iff.1 rest
    have target := placed'.mono evolves.wellFormed evolves.domains.narrows
    obtain ⟨wellFormed₁, narrows₁, -⟩ := tighten_spec evolves.wellFormed low
    obtain ⟨wellFormed₂, narrows₂, -⟩ := tighten_spec wellFormed₁ high
    obtain ⟨x, row₁, present₁, x1, -, -, -⟩ := target.mono wellFormed₁ narrows₁
    obtain ⟨y, row₂, present₂, -, y2, -, -⟩ :=
      (target.mono wellFormed₁ narrows₁).mono wellFormed₂ narrows₂
    obtain ⟨old, tightens⟩ := tightens_of_tighten evolves.wellFormed low row₁
      (Interval.isAbsent_eq_false present₁)
    obtain ⟨old', tightens'⟩ := tightens_of_tighten wellFormed₁ high row₂
      (Interval.isAbsent_eq_false present₂)
    have least := tightens.startMin_le
    have greatest := tightens'.le_startMax
    simp only [Bounds.tighten] at least greatest
    cases point : p.point <;> simp only [point, Endpoint.least, Endpoint.greatest, Endpoint.time] at * <;>
      omega

/-- A run that succeeds finds its intervals tied. -/
theorem follows_of_propagate {context : Context} (wellFormed : s.domains.WellFormed)
    (ran : (p.propagate context).exec s = .ok (.ok (), s')) : p.Follows s.domains := by
  intro source target
  obtain ⟨⟨⟩, t, agreed, -⟩ := exec_bind_succeeds_iff.1 ran
  obtain ⟨evolves, forward, backward, -⟩ := agree_spec wellFormed agreed
  have kept {i : IntervalId} {start stop : Int} (placed : s.domains.Places i start stop) :
      ¬ t.domains.Lacks i := fun lacks =>
    lacks.not_places (placed.mono evolves.wellFormed evolves.domains.narrows)
  rcases source with lacks | ⟨start, stop, placed⟩ <;>
    rcases target with lacks' | ⟨start', stop', placed'⟩
  · exact .inl ⟨lacks, lacks'⟩
  · exact absurd (forward lacks) (kept placed')
  · exact absurd (backward lacks') (kept placed)
  · have same := start_eq_of_propagate wellFormed ran placed placed'
    exact .inr ⟨start, stop, stop', placed, same ▸ placed'⟩

end Run

/-! ## The guarantee -/

/-- Both intervals exist, the bounds of the target are at least as tight as those with which it was
made, and the synchronisation is switched off only if both are absent. -/
structure Standing (p : Synchronisation) (bounds : Bounds) (activity : CellId) (q : Rule)
    (d : Domains) (values : Table Int) : Prop where
  rule : q = .synchronisation p
  source : p.source.index < d.intervals.size
  target : ∃ v, d.interval p.target = .ok v ∧ bounds.Tightens v.toBounds
  inside : activity.index < values.size
  off : values.get? activity.index = some 0 → d.Lacks p.source ∧ d.Lacks p.target

/-- The intervals are tied once both are resolved. -/
def guarantee (p : Synchronisation) (bounds : Bounds) : Guarantee where
  Accepts := p.Follows
  Invariant := Standing p bounds
  Allowed _ _ := True
  Watches v event := ∃ watch ∈ p.blueprint.watches, watch.Tells v event

variable {p : Synchronisation} {bounds : Bounds}

theorem Follows.of_narrows {d d' : Domains} (wellFormed' : d'.WellFormed) (narrows : d.Narrows d')
    (follows : p.Follows d') : p.Follows d := by
  intro source target
  have both := follows (source.mono wellFormed' narrows) (target.mono wellFormed' narrows)
  rcases source with lacks | ⟨start, stop, placed⟩ <;>
    rcases target with lacks' | ⟨start', stop', placed'⟩
  · exact .inl ⟨lacks, lacks'⟩
  · rcases both with ⟨-, lacks'⟩ | ⟨_, _, _, placed, -⟩
    · exact absurd (placed'.mono wellFormed' narrows) lacks'.not_places
    · exact absurd placed (lacks.mono narrows).not_places
  · rcases both with ⟨lacks, -⟩ | ⟨_, _, _, -, placed'⟩
    · exact absurd (placed.mono wellFormed' narrows) lacks.not_places
    · exact absurd placed' (lacks'.mono narrows).not_places
  · rcases both with ⟨lacks, -⟩ | ⟨start₁, stop₁, stop₂, first, second⟩
    · exact absurd (placed.mono wellFormed' narrows) lacks.not_places
    · obtain ⟨rfl, rfl⟩ := (placed.mono wellFormed' narrows).unique first
      obtain ⟨rfl, rfl⟩ := (placed'.mono wellFormed' narrows).unique second
      exact .inr ⟨_, _, _, placed, placed'⟩

theorem Standing.mono {activity : CellId} {q : Rule} {d d' : Domains} {values values' : Table Int}
    (h : Standing p bounds activity q d values) (narrows : d.Narrows d')
    (same : ∀ cell ∈ activity :: q.cells, values'.get? cell.index = values.get? cell.index) :
    Standing p bounds activity q d' values' := by
  have activityCell := same activity (by simp)
  obtain ⟨v, row, tightens⟩ := h.target
  obtain ⟨v', row', narrower⟩ := narrows.interval _ v row
  refine ⟨h.rule, Nat.lt_of_lt_of_le h.source narrows.extends.intervals,
    ⟨v', row', tightens.trans narrower.tightens⟩, ?_, fun zero => ?_⟩
  · obtain ⟨flag, known⟩ := Table.exists_get? h.inside
    rw [← activityCell] at known
    exact Table.lt_size_of_get? known
  · obtain ⟨lacks, lacks'⟩ := h.off (by rw [← activityCell, zero])
    exact ⟨lacks.mono narrows, lacks'.mono narrows⟩

theorem standing_of_run {context : Context} {q q' : Rule} {status : Status} {s s' : Store}
    (ran : (Propagator.run context q).run s = .ok ((q', status), s'))
    (wellFormed : s.domains.WellFormed)
    (standing : Standing p bounds context.activity q s.domains s.cells.values) :
    q' = q ∧ Standing p bounds context.activity q s'.domains s'.cells.values ∧
      (status = .ok () → p.Follows s.domains) := by
  have evolves := (Rule.evolves_of_run wellFormed ran).2
  have narrows := evolves.domains.narrows
  obtain ⟨rfl, source, ⟨v, row, tightens⟩, inside, off⟩ := standing
  obtain ⟨p', rfl, lifted⟩ := Rule.lift_spec ran
  obtain ⟨rfl, ran⟩ := Rule.plain_spec lifted
  obtain ⟨v', row', narrower⟩ := narrows.interval _ v row
  refine ⟨rfl, ⟨rfl, Nat.lt_of_lt_of_le source narrows.extends.intervals,
    ⟨v', row', tightens.trans narrower.tightens⟩, by rw [evolves.cells.size]; exact inside,
    fun zero => ?_⟩, ?_⟩
  · rcases propagate_cases wellFormed ran with quiet | both
    · rw [quiet.cells.values_eq] at zero
      obtain ⟨lacks, lacks'⟩ := off zero
      exact ⟨lacks.mono narrows, lacks'.mono narrows⟩
    · exact both
  · rintro rfl
    exact follows_of_propagate wellFormed ran

/-- A synchronisation gives its guarantee. -/
theorem lawful (p : Synchronisation) (bounds : Bounds) : (guarantee p bounds).Lawful where
  invariant_mono standing _ _ narrows same := standing.mono narrows same
  run ran wellFormed _ standing _ := by
    obtain ⟨rfl, after, accepts⟩ := standing_of_run ran wellFormed standing
    exact ⟨after, rfl, fun cell mem => by simp [after.rule, Rule.sizes] at mem,
      fun _ _ standing _ => standing, accepts⟩
  accepts_of_idle standing _ zero := fun _ _ => .inl (standing.off zero)
  accepts_or_watches := by
    intro activity q d d' values events standing _ _ narrows reports accepts
    obtain ⟨v, row, -⟩ := standing.target
    have known := Table.lt_size_of_get? (Domains.interval_eq_ok_iff.1 row)
    rcases Domains.interval_eq_or_reported narrows reports standing.source with same | ⟨e, any, mem⟩
    · rcases Domains.interval_eq_or_reported narrows reports known with same' | ⟨e, any, mem⟩
      · left
        simp only [guarantee, Follows, Domains.Resolves, Domains.Lacks, Domains.Places, same,
          same'] at accepts ⊢
        exact accepts
      · exact .inr ⟨_, e, mem, .interval p.target .anyInterval,
          by simp [blueprint, Blueprint.plain], rfl, any⟩
    · exact .inr ⟨_, e, mem, .interval p.source .anyInterval,
        by simp [blueprint, Blueprint.plain], rfl, any⟩
  accepts_of_narrows _ wellFormed' narrows accepts := Follows.of_narrows wellFormed' narrows accepts

/-! ## Making a synchronised interval -/

/-- The bounds with which a target is made: it ends at the horizon. -/
def targetBounds : Bounds := ⟨-horizon, horizon, horizon, horizon, 0, 2 * horizon⟩

theorem withinHorizon_targetBounds : targetBounds.WithinHorizon := by
  constructor <;> simp [targetBounds, horizon]

/-- The invariant of a synchronisation holds as soon as it is posted with a new target. -/
theorem standing_of_blueprint (d : Domains) (source : IntervalId) (point : Endpoint)
    {row : Interval} {presence : Presence} (known : source.index < d.intervals.size)
    (made : Interval.ofBounds targetBounds presence = .ok row) (values : Table Int) :
    Standing ⟨source, d.nextInterval, point⟩ targetBounds ⟨values.size⟩
      (.synchronisation ⟨source, d.nextInterval, point⟩) (d.addInterval row)
      ((1 :: []).foldl Table.push values) := by
  refine ⟨rfl, ?_, ⟨row, ?_, Interval.tightens_of_ofBounds withinHorizon_targetBounds made⟩, ?_,
    fun zero => ?_⟩
  · simp only [Domains.addInterval, Table.size_push]
    omega
  · rw [Domains.interval_eq_ok_iff, Domains.addInterval, Table.get?_push]
    simp [Domains.nextInterval]
  · rw [Table.size_foldl_push]
    simp
  · rw [Table.get?_foldl_push, if_neg (by simp)] at zero
    simp at zero

variable {c : State} {s : Solver Rule} {source target : IntervalId} {point : Endpoint}

/-- A synchronised interval is made in two steps: the interval, and its synchronisation. -/
theorem exists_steps_of_newSynchronisedInterval (sane : c.Sane) (last : c.last ≠ .failed)
    (made : (Posting.newSynchronisedInterval source point).run.run c.solver =
      .ok (.ok target, s)) :
    c.Ready ∧ ∃ v row c₁, c.solver.domains.interval source = .ok v ∧
      Interval.ofBounds targetBounds v.presence = .ok row ∧
      target = c.solver.domains.nextInterval ∧
      c₁.solver = c.solver.withEngine
        (c.solver.engine.withDomains (c.solver.engine.domains.addInterval row)) ∧
      Step (.newInterval targetBounds v.presence) c c₁ ∧ c₁.Ready ∧
      Step (.post (.synchronisation ⟨source, target, point⟩)) c₁ ⟨s, .done⟩ ∧
      State.Ready ⟨s, .done⟩ := by
  rcases Posting.run_bind_eq_ok_iff.1 made with ⟨v, s₀, looked, made⟩ | ⟨cause, -, impossible⟩
  swap
  · cases impossible
  obtain ⟨_, found, eq⟩ := Posting.run_liftM_eq_ok_iff.1 looked
  cases eq
  obtain ⟨_, _, got, rest⟩ := Scheduling.run_bind_eq_ok_iff.1 found
  cases got
  obtain ⟨row, rfl⟩ := Scheduling.run_liftM_eq_ok_iff.1 rest
  rcases Posting.run_bind_eq_ok_iff.1 made with ⟨i, s₁, created, made⟩ | ⟨cause, -, impossible⟩
  swap
  · cases impossible
  obtain ⟨_, created, eq⟩ := Posting.run_liftM_eq_ok_iff.1 created
  cases eq
  rcases Posting.run_bind_eq_ok_iff.1 made with ⟨p, s₂, added, made⟩ | ⟨cause, -, impossible⟩
  swap
  · cases impossible
  cases made
  have performed : Operation.run c.solver (.newInterval targetBounds v.presence) =
      .ok ⟨s₁, .done⟩ := by
    show ((Session.onEngine (·.newInterval targetBounds v.presence)).run c.solver >>= _) = _
    rw [show (Session.onEngine (·.newInterval targetBounds v.presence)).run c.solver =
      .ok (target, s₁) from created]
    rfl
  obtain ⟨e, grown, rfl⟩ := Session.onEngine_eq_ok_iff.1 created
  obtain ⟨new, consistent, rfl, rfl⟩ := Engine.newInterval_spec grown
  have unblocked := Posting.feasible_of_add added
  have feasible : c.solver.isInfeasible = false := unblocked
  have ready : c.Ready := ⟨feasible, last, sane feasible⟩
  have first : Step (.newInterval targetBounds v.presence) c _ :=
    ready.step withinHorizon_targetBounds performed
  have ready₁ := ready.next first feasible (by simp)
  obtain ⟨second, ready₂, -⟩ := Posting.step_of_add_ok
    (x := .synchronisation ⟨source, c.solver.engine.domains.nextInterval, point⟩) ready₁ trivial added
  exact ⟨ready, v, new, _, row, consistent, rfl, rfl, first, ready₁, second, ready₂⟩

end Synchronisation

end Scheduling
