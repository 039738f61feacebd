import Scheduling.Proofs.Cumulative.Trimming
import Scheduling.Proofs.Synchronisation

/-!
# Propagators that switch themselves off

A propagator that is off is not called any more, until the search goes back. So it may switch itself
off only if nothing within the domains can violate its constraint, and the constraint is that of all
intervals and heights with which it was posted: a resource judges by the activities that are still
active, and those that it has taken out must not matter.

Results:
* `Resource.Respects`: the level respects the limits wherever an activity executes.
* `Synchronisation.holds_of_switchedOff`, `Machine.holds_of_switchedOff`,
  `Resource.respects_of_switchedOff`: what a run shows that switches its propagator off.
* `Engine.entails_of_switchedOff`: the same of every call in a run of a solver.
-/

namespace Scheduling

open Propagation

/-! ## Single runs -/

section Run

variable {context : Context} {s s' : Store} {status : Status} {a : Assignment}

/-- A synchronisation is switched off when both intervals are absent. -/
theorem Synchronisation.holds_of_switchedOff {p : Synchronisation}
    (wellFormed : s.domains.WellFormed) (ran : (p.propagate context).exec s = .ok (status, s'))
    (on : s.cells.values.get? context.activity.index ≠ some 0)
    (off : s'.cells.values.get? context.activity.index = some 0) (admits : s'.domains.Admits a) :
    p.Holds a := by
  rcases propagate_cases wellFormed ran with quiet | ⟨source, target⟩
  · rw [quiet.cells.values_eq] at off
    exact absurd off on
  · rw [Holds, admits.interval_eq_of_lacks source, admits.interval_eq_of_lacks target]
    rfl

/-- Where of any two intervals one is absent, no two of them overlap. -/
theorem Machine.Idle.separates {is : List IntervalId} {d : Domains} (h : Idle is d)
    (admits : d.Admits a) : a.Separates is := by
  refine h.imp ?_
  rintro i j (lacks | lacks)
  · rw [admits.interval_eq_of_lacks lacks]
    exact .inl trivial
  · rw [admits.interval_eq_of_lacks lacks]
    exact .inr trivial

namespace Resource

/-- Wherever an activity executes, the level respects the limits that there are. -/
def Respects (r : Resource) (a : Assignment) : Prop :=
  ∀ time, (∃ x ∈ r.activities.toList, (a.interval x.interval).executesAt time = true) →
    r.capacity.Allows (a.level r.activities.toList time)

variable {xs : List Activity} {c : Capacity} {r : Resource} {d : Domains} {values : Table Int}
  {m : Nat} {span : Span} {cs : List Captured}

/-- The level respects the limits where an activity executes that is cleared. -/
theorem Cleared.allows {x : Activity} (h : Cleared xs c d x) (admits : d.Admits a) {time : Int}
    (executes : (a.interval x.interval).executesAt time = true) : c.Allows (a.level xs time) := by
  obtain ⟨low, high⟩ := h a admits time executes
  exact ⟨fun _ => low, fun _ => high⟩

/-- If nothing that the active activities can do matters, nothing that all activities can do does. -/
theorem Captures.allows_of_safe (h : Captures xs c r d values m span cs) (wellFormed : d.WellFormed)
    (safe : isSafe c (cs.map Captured.bounds) = true) (admits : d.Admits a) {k : Nat} {x : Activity}
    (here : r.activities.get? k = some x) {time : Int}
    (executes : (a.interval x.interval).executesAt time = true) : c.Allows (a.level xs time) := by
  rcases h.shape k x here with ⟨-, covered⟩ | ⟨-, cleared⟩
  · obtain ⟨le, lt⟩ := covered.within admits executes
    rw [h.level_eq admits le lt]
    exact h.allows_of_isSafe wellFormed safe admits time
  · exact cleared.allows admits executes

/-- A run switches the resource off if nothing is active, if nothing that the active activities can do
matters, or if all of them are fixed and keep within the capacity. -/
theorem Ran.reason (ran : Ran r context s cs status s') (nodup : (context.activity :: r.cells).Nodup)
    (on : s.cells.values.get? context.activity.index ≠ some 0)
    (off : s'.cells.values.get? context.activity.index = some 0) :
    s'.domains = s.domains ∧ (cs = [] ∨ isSafe r.capacity (cs.map Captured.bounds) = true ∨
      ∃ profile, Profile.build (cs.map Captured.bounds) = .ok profile ∧
        profile.isConsistent r.capacity.minimum r.capacity.maximum = true ∧
        ∀ b ∈ cs, b.bounds.isFixed = true) := by
  have switched {t : Store} (ran : (setActive context false).exec t = .ok (status, s')) :
      s'.domains = t.domains := (writeCell_spec ran).2.1
  cases ran with
  | idle empty ran => exact ⟨switched ran, .inl empty⟩
  | safe safe ran => exact ⟨switched (t := s.say .capacitySafe) ran, .inr (.inl safe)⟩
  | conflict _ same =>
    rw [same] at off
    exact absurd off on
  | settled profile build consistent fixed ran =>
    exact ⟨switched ran, .inr (.inr ⟨profile, build, consistent, fixed⟩)⟩
  | failed _ evolves =>
    rw [evolves.cells.values_eq] at off
    exact absurd off on
  | stored profile build consistent moving t evolves _ store =>
    -- The span is not stored in the activity cell.
    obtain ⟨-, -, row⟩ := storeSpan_spec (List.nodup_cons.1 nodup).2 store
    have apart : ∀ cell ∈ r.cells, context.activity.index ≠ cell.index :=
      fun cell mem => index_ne_of_nodup_cons nodup mem
    rw [row, if_neg (apart _ (by simp [cells])), if_neg (apart _ (by simp [cells])),
      evolves.cells.values_eq] at off
    exact absurd off on

/-- A run that switches the resource off has shown that every level respects the limits, although it
has looked at the active activities only. -/
theorem respects_of_switchedOff {r' : Resource} (wellFormed : s.domains.WellFormed)
    (fits : Fits xs c r s.domains s.cells.values m span)
    (nodup : (context.activity :: r.cells).Nodup)
    (ran : (run context r).run s = .ok ((r', status), s'))
    (on : s.cells.values.get? context.activity.index ≠ some 0)
    (off : s'.cells.values.get? context.activity.index = some 0) (admits : s'.domains.Admits a) :
    r.Respects a := by
  obtain ⟨active, cells, m', cs, rfl, course⟩ := course_of_run wellFormed fits nodup ran
  have captures := course.captures
  have on' : cells.values.get? context.activity.index ≠ some 0 := by
    rw [course.evolves.others context.activity (by
      have differs := (List.nodup_cons.1 nodup).1
      simp only [Resource.cells, List.mem_cons, not_or] at differs
      simpa using differs.1)]
    exact on
  obtain ⟨domains, reason⟩ := course.ends.reason (course.nodup nodup) on' off
  rw [domains] at admits
  rintro time ⟨x, mem, executes⟩
  rw [show r.capacity = c from captures.capacity] at reason ⊢
  rw [fits.activities] at mem ⊢
  rcases reason with rfl | safe | ⟨profile, build, consistent, fixed⟩
  · exact (captures.cleared_of_captured (by simp) x mem).allows admits executes
  · obtain ⟨k, here⟩ := captures.exists_get? mem
    exact captures.allows_of_safe wellFormed safe admits here executes
  · exact (captures.cleared_of_isConsistent wellFormed build consistent fixed x mem).allows admits
      executes

end Resource

end Run

/-! ## Runs of a solver -/

namespace Engine

variable {e f f' : Engine Rule} {p : PropagatorId}

/-- Only propagators that are on are called. -/
theorem isActive_of_callsWithin {rounds : Nat} (calls : e.CallsWithin rounds p f) :
    f.isActive p = .ok true := by
  induction rounds generalizing e with
  | zero => exact calls.elim
  | succ rounds ih =>
    obtain ⟨_, _, _, -, -, ⟨-, -, active⟩ | ⟨e', -, later⟩⟩ := calls
    · exact active
    · exact ih later

/-- If a call switches off the propagator that was called, every assignment within the domains that it
leaves satisfies the constraint of the propagator. -/
theorem entailed_of_switchedOff {c : State} {op : Operation} {q : Rule} {status : Status}
    (accessible : Scheduling.Accessible c) (valid : op.Valid c.solver)
    (calls : op.Calls c.solver p f) (row : f.propagators.get? p.index = some q)
    (called : f.call p = .ok (status, f')) (off : f'.isActive p = .ok false) :
    (∃ a, f'.domains.Admits a) ∧ ∀ a, f'.domains.Admits a →
      (∀ s, q = .synchronisation s → s.Holds a) ∧ (∀ m, q = .machine m → m.Holds a) ∧
        ∀ r, q = .resource r → r.Respects a ∧ (r.activities.size < 2 ^ 30 → r.Holds a) := by
  obtain ⟨sane, covers⟩ :=
    Guarantee.covers_of_visited Rule.family (.call accessible valid calls)
  obtain ⟨_, -, calls⟩ := calls
  obtain ⟨activity, value, here, on, active⟩ := isActive_eq_ok (isActive_of_callsWithin calls)
  have wellFormed := sane.wellFormed_now
  have wellFormed' := (sane_of_call sane called).wellFormed_now
  obtain ⟨_, _, q', s', here', row', ran, rfl⟩ := call_spec called
  obtain ⟨_, value', here'', known, inactive⟩ := isActive_eq_ok off
  obtain ⟨_, tracked⟩ := covers p q row
  have invariant := tracked.invariant_now (Rule.family.lawful q) sane
  have nodup := sane.owned_nodup p
  rw [tracked.owned_eq] at nodup
  cases here.symm.trans here'
  cases here.symm.trans here''
  cases here.symm.trans tracked.here
  cases row.symm.trans row'
  have before : f.store.cells.values.get? activity.index ≠ some 0 := by
    rw [on]
    simpa using active
  have after : s'.cells.values.get? activity.index = some 0 := by
    rw [show s'.cells.values.get? activity.index = some value' from known]
    simpa using inactive
  refine ⟨wellFormed'.exists_admits, fun a admits => ⟨?_, ?_, ?_⟩⟩
  · rintro x rfl
    obtain ⟨_, rfl, lifted⟩ := Rule.lift_spec ran
    exact Synchronisation.holds_of_switchedOff wellFormed (Rule.plain_spec lifted).2 before after
      admits
  · rintro m rfl
    obtain ⟨⟨_, _, -, -, -, idle⟩, -⟩ := Machine.standing_of_run ran wellFormed nodup invariant
    exact (idle after).separates admits
  · rintro r rfl
    obtain ⟨⟨_, _, _, -, -, -, enforced⟩, -⟩ :=
      Resource.standing_of_run ran wellFormed nodup invariant
    obtain ⟨_, m, span, ⟨⟩, fits, -, -⟩ := invariant
    obtain ⟨_, rfl, lifted⟩ := Rule.lift_spec ran
    exact ⟨Resource.respects_of_switchedOff wellFormed fits nodup lifted before after admits,
      fun few => enforced after (by simpa [Table.size, Table.toList] using few) a admits⟩

/-- The third activity is given its start, after the other two have left the active set. -/
def settling : Operation := .decide (.update ⟨2⟩ (.bound .startMax 11))

theorem entailed_of_switchedOff_trimmed :
    ∃ f', (settling.called Resource.trimmedState.solver).call ⟨0⟩ = .ok (.ok (), f') ∧
      f'.isActive ⟨0⟩ = .ok false ∧ Resource.trimmedResource.active.members f'.store.cells = .ok [2] ∧
      ∀ a, f'.domains.Admits a → Resource.trimmedResource.Holds a := by
  have found : ((settling.caller? Resource.trimmedState.solver).map Prod.fst,
      (settling.called Resource.trimmedState.solver).propagators.get? 0,
      ((settling.called Resource.trimmedState.solver).call ⟨0⟩).map fun (status, f') =>
        (status, f'.isActive ⟨0⟩, Resource.trimmedResource.active.members f'.store.cells)) =
        (some ⟨0⟩, some (.resource Resource.trimmedResource),
          .ok (.ok (), .ok false, .ok [2])) := by cbv
  simp only [Prod.mk.injEq] at found
  obtain ⟨first, row, ends⟩ := found
  cases called : (settling.called Resource.trimmedState.solver).call ⟨0⟩ with
  | error fault =>
    rw [called] at ends
    cases ends
  | ok result =>
    obtain ⟨status, f'⟩ := result
    rw [called] at ends
    simp only [Except.map, Except.ok.injEq, Prod.mk.injEq] at ends
    obtain ⟨rfl, off, members⟩ := ends
    refine ⟨f', rfl, off, members, fun a admits => ?_⟩
    have valid : settling.Valid Resource.trimmedState.solver := trivial
    have entailed := entailed_of_switchedOff (reachable_reach _).accessible valid
      (Operation.calls_of_caller? first) row called off
    exact ((entailed.2 a admits).2.2 _ rfl).2 (by decide)

end Engine

end Scheduling
