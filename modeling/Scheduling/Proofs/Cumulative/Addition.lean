import Scheduling.Proofs.Cumulative.Completion
import Scheduling.Proofs.Entailment
import Scheduling.Proofs.Termination

/-!
# Adding a resource

When a resource is added, propagation runs until nothing changes, the new resource and all others
included. This comes to an end, since the resource does not fault either, and whatever it comes to,
the resource is there afterwards with its activities and its capacity.

Results:
* `Posting.exists_add`: adding a propagator comes to an end if the calls that it makes return.
* `Resource.row_of_calls`: who is called meanwhile.
* `Resource.Added`, `Resource.added_of_add`: what adding a resource leaves.
* `Cumulative.exists_add`: adding the resource of a cumulative constraint comes to an end.
-/

namespace Scheduling

/-- Posting a propagator comes to an end if the calls that it makes return. -/
theorem Posting.exists_add {x : Posted} {s : Solver Rule} (accessible : s.engine.Accessible)
    (feasible : s.isInfeasible = false)
    (returns : ∀ p f, (Operation.post x).Calls s p f → ∃ status f', f.call p = .ok (status, f')) :
    ∃ result s', (add x.blueprint).run.run s = .ok (result, s') := by
  obtain ⟨id, e, installed⟩ := accessible.closed.exists_install x.blueprint
  have enters : (Operation.post x).Enters s e := ⟨feasible, id, installed⟩
  have entered := accessible.enters enters
  obtain ⟨⟨status, e', loops⟩, -⟩ := Engine.propagate_ends entered.closed
    entered.order.store.wellFormed_now.bounded fun p f calls => returns p f ⟨e, enters, calls⟩
  have added : s.engine.add x.blueprint = .ok (id, status, e') :=
    bind_eq_ok_iff.2 ⟨(id, e), installed,
      bind_eq_ok_iff.2 ⟨(status, e'), loops e.rounds (Nat.le_refl _), rfl⟩⟩
  have propagated : (Session.onEngine fun e => do
      let (p, status, e) ← e.add x.blueprint
      return ((p, status), e) : Session Rule (PropagatorId × Status)).run s =
        .ok ((id, status), s.withEngine e') :=
    Session.onEngine_eq_ok_iff.2 ⟨e', bind_eq_ok_iff.2 ⟨_, added, rfl⟩, rfl⟩
  refine ⟨match status with | .ok () => .ok id | .error _ => .error .infeasiblePropagator,
    (s.withEngine e').ended status, run_bind_eq_ok_iff.2 (.inl ⟨s, s, rfl, ?_⟩)⟩
  simp only [feasible, Bool.false_eq_true, if_false]
  refine run_bind_eq_ok_iff.2 (.inl ⟨_, _, run_liftM_eq_ok_iff.2 ⟨_, propagated, rfl⟩, ?_⟩)
  cases status <;> rfl

theorem Solver.domains_ended (s : Solver Rule) (status : Status) :
    (s.ended status).domains = s.domains ∧
      (s.ended status).engine.propagators = s.engine.propagators := by
  cases status with
  | ok => exact ⟨rfl, rfl⟩
  | error cause =>
    by_cases root : s.engine.depth = 0 <;> simp only [ended, markInfeasible, root] <;>
      exact ⟨rfl, rfl⟩

namespace Resource

variable {s : Solver Rule} {xs : List Activity} {limits : Capacity} {options : ResourceOptions}

/-- A propagator that is tracked as a resource is one, for these activities. -/
theorem exists_row_of_tracks {e : Engine Rule} {p : PropagatorId} {activity : CellId} {q : Rule}
    (tracked : (guarantee xs limits).Tracks e p activity q) (sane : e.Sane) :
    ∃ r, e.propagators.get? p.index = some (.resource r) ∧ r.activities.toList = xs ∧
      r.capacity = limits := by
  obtain ⟨r, _, _, rfl, fits, -⟩ := tracked.invariant_now (lawful xs limits) sane
  exact ⟨r, tracked.row, fits.activities, fits.capacity⟩

/-- A resource is tracked as soon as it is added. -/
theorem tracks_of_enters {e : Engine Rule} (sane : s.engine.Sane)
    (known : s.domains.Knows xs)
    (enters : (Operation.post (.resource xs limits options)).Enters s e) :
    ∃ activity q, (guarantee xs limits).Tracks e ⟨s.engine.propagators.size⟩ activity q := by
  obtain ⟨-, id, made⟩ := enters
  have installed := Engine.installed_of_install made
  obtain rfl := installed.key
  refine ⟨_, _, (Guarantee.tracks_of_install sane installed (Posted.standard _)
    (fun v event => exists_watch options) fun k => ?_).1⟩
  have start := standing_of_blueprint (c := limits) options known (sane.store.wellFormed k)
    (Domains.size_past s.engine.domains k).1 (Domains.size_past s.engine.domains k).2
    ⟨s.engine.propagators.size⟩ (s.engine.store.cells.past k)
  simp only [Cells.size_past] at start
  exact start

/-- Whoever is called when a resource is posted was there before, or is the resource. -/
theorem row_of_calls {p : PropagatorId} {f : Engine Rule} (sane : s.engine.Sane)
    (known : s.domains.Knows xs)
    (calls : (Operation.post (.resource xs limits options)).Calls s p f) :
    p.index < s.engine.propagators.size ∨ ∃ r, f.propagators.get? p.index = some (.resource r) ∧
      r.activities.toList = xs ∧ r.capacity = limits := by
  obtain ⟨e, enters, called⟩ := calls
  obtain ⟨activity, q, tracked⟩ := tracks_of_enters sane known enters
  obtain ⟨sane', q', tracked'⟩ := Guarantee.tracks_of_callsWithin tracked (lawful xs limits)
    (enters.sane sane) (fun _ _ _ _ => trivial) called
  obtain ⟨cell, value, here, -⟩ := Engine.isActive_eq_ok (Engine.isActive_of_callsWithin called)
  have below := Table.lt_size_of_get? here
  have size := (Engine.sane_of_callsWithin (enters.sane sane) called).2.size
  obtain ⟨-, id, made⟩ := enters
  rw [sane'.size, size, (Engine.installed_of_install made).propagators, Table.size_push] at below
  rcases Nat.lt_or_ge p.index s.engine.propagators.size with old | new
  · exact .inl old
  · obtain rfl : p = ⟨s.engine.propagators.size⟩ := by
      cases p
      simp only [PropagatorId.mk.injEq] at *
      omega
    exact .inr (exists_row_of_tracks tracked' sane')

/-- A resource for these activities is the only propagator that is new, and no domain has grown. -/
structure Added (xs : List Activity) (limits : Capacity) (s s' : Solver Rule) : Prop where
  narrows : s.domains.Narrows s'.domains
  wellFormed : s'.domains.WellFormed
  size : s'.engine.propagators.size = s.engine.propagators.size + 1
  row : ∃ r, s'.engine.propagators.get? s.engine.propagators.size = some (.resource r) ∧
    r.activities.toList = xs ∧ r.capacity = limits

/-- Whatever adding a resource comes to, it has been added. -/
theorem added_of_add {result : Except PostError PropagatorId} {s' : Solver Rule}
    (sane : s.engine.Sane) (feasible : s.isInfeasible = false) (known : s.domains.Knows xs)
    (ran : (Posting.add (Posted.resource xs limits options).blueprint).run.run s =
      .ok (result, s')) :
    ((∃ p, result = .ok p) ∨ result = .error .infeasiblePropagator) ∧ Added xs limits s s' := by
  rcases Posting.add_cases ran with ⟨known, -⟩ | ⟨-, id, e, status, e', made, looped, rfl, answer⟩
  · simp [feasible] at known
  · have enters : (Operation.post (.resource xs limits options)).Enters s e := ⟨feasible, id, made⟩
    obtain ⟨activity, q, tracked⟩ := tracks_of_enters sane known enters
    have sane₁ := enters.sane sane
    obtain ⟨sane', advances, -⟩ := Engine.sane_of_loop sane₁ looped
    obtain ⟨⟨q', tracked'⟩, -⟩ := Guarantee.spec_of_loop tracked (lawful xs limits) sane₁
      (fun _ _ _ _ => trivial) looped
    obtain ⟨domains, propagators⟩ := (s.withEngine e').domains_ended status
    constructor
    · cases status with
      | ok => exact .inl ⟨id, answer⟩
      | error cause => exact .inr answer
    · constructor
      · rw [domains]
        exact (Operation.Enters.narrows enters sane).trans advances.narrows
      · rw [domains]
        exact sane'.wellFormed_now
      · rw [propagators]
        show e'.propagators.size = _
        rw [advances.size, (Engine.installed_of_install made).propagators, Table.size_push]
      · rw [propagators]
        exact exists_row_of_tracks tracked' sane'

end Resource

/-- Posting the resource of a cumulative constraint comes to an end if the bounds of all heights can
be computed, and the propagators that were there before do not fault. -/
theorem Cumulative.exists_add {k : Cumulative} {c : State} {limits : Capacity}
    (accessible : Accessible c) (feasible : c.solver.isInfeasible = false)
    (accepted : capacity k.minimum k.maximum = .ok limits)
    (words : ∀ m, k.minimum = some m → Width.w64.Holds m)
    (known : c.solver.domains.Knows k.activities) (few : k.activities.length < 2 ^ 30)
    (evaluates : ∀ x ∈ k.activities, x.Evaluates c.solver.domains)
    (others : ∀ p f, (Operation.post (.resource k.activities limits k.options)).Calls c.solver p f →
      p.index < c.solver.engine.propagators.size → ∃ status f', f.call p = .ok (status, f')) :
    ∃ result s', (Posting.add (Posted.resource k.activities limits
      k.options).blueprint).run.run c.solver = .ok (result, s') := by
  refine Posting.exists_add accessible.engine feasible fun p f calls => ?_
  rcases Resource.row_of_calls (sane_of_accessible accessible) known calls with
    old | ⟨r, row, activities, rfl⟩
  · exact others p f calls old
  · have valid : (Operation.post (.resource k.activities r.capacity k.options)).Valid c.solver :=
      ⟨known, holds_capacity words accepted⟩
    obtain ⟨-, -, -, status, f', -, -, called⟩ :=
      call_completes accessible .refl valid calls row activities accepted words few evaluates
    exact ⟨status, f', called⟩

end Scheduling
