import Scheduling.Proofs.Cumulative.Rest
import Scheduling.Proofs.Disjunctive.Rest
import Scheduling.Proofs.Restoration

/-!
# Propagators at rest

A propagator is at rest if it is switched off, or if another run succeeds and changes no domain. It
is so after every run that has changed no row in its scope; and it stays so as long as these rows and
its own cells are the same, also when a later run, which the search has left since, has permuted its
active set.

Results:
* `Rule.AtRest`: what it is to be at rest, in given domains and with given values of the cells.
* `Rule.AtRest.mono`: only the rows in scope and the cells of the propagator matter.
* `Rule.AtRest.of_agrees`: nor does the order of the members of its active set.
* `Rule.atRest_of_run`: a run that succeeds and changes no row leaves the propagator at rest.
* `Rule.exists_run_of_atRest`: another run succeeds and changes no domain, unless a sum of heights
  does not fit a word.
-/

namespace Scheduling

open Propagation

namespace Rule

/-- The propagator is no script. -/
def BuiltIn : Rule → Prop
  | .script _ => False
  | _ => True

/-- Another run finds nothing to do. -/
def Idles (context : Context) (d : Domains) (values : Table Int) : Rule → Prop
  | .synchronisation p => Rests [context.activity] (Rule.synchronisation p).scope d
      (p.propagate context) ()
  | .precedence p => Rests [context.activity] (Rule.precedence p).scope d (p.propagate context) ()
  | .checker c => Rests [context.activity] (Rule.checker c).scope d c.propagate ()
  | .machine m => ∃ n ks, m.Steady d values n ks
  | .resource r => ∃ m ks cs, r.Steady d values m ks cs
  | .script _ => False

/-- The propagator is switched off, or another run finds nothing to do. -/
def AtRest (context : Context) (q : Rule) (d : Domains) (values : Table Int) : Prop :=
  values.get? context.activity.index = some 0 ∨ q.Idles context d values

variable {context : Context} {q q' : Rule} {d d' : Domains} {values values' : Table Int}

/-- Only the rows in scope and the cells of the propagator matter. -/
theorem AtRest.mono (h : q.AtRest context d values) (agrees : d.Agrees q.scope d')
    (same : ∀ cell ∈ context.activity :: q.cells, values'.get? cell.index = values.get? cell.index) :
    q.AtRest context d' values' := by
  obtain ⟨activity, own⟩ := List.forall_mem_cons.1 same
  rcases h with off | idles
  · exact .inl (activity.trans off)
  right
  cases q with
  | synchronisation p => exact Rests.mono idles agrees
  | precedence p => exact Rests.mono idles agrees
  | checker c => exact Rests.mono idles agrees
  | machine m => exact idles.imp fun _ => Exists.imp fun _ steady => steady.mono agrees own
  | resource r =>
    exact idles.imp fun _ => Exists.imp fun _ => Exists.imp fun _ steady => steady.mono agrees own
  | script p => exact idles.elim

/-! ## Runs -/

/-- The second propagator is the first one, but for its active set. -/
inductive Reorders : Rule → Rule → Prop
  | refl (q : Rule) : Reorders q q
  | machine (m : Machine) (active : SparseSet) : Reorders (.machine m) (.machine { m with active })
  | resource (r : Resource) (active : SparseSet) :
    Reorders (.resource r) (.resource { r with active })

namespace Reorders

variable {q'' : Rule}

theorem trans (h : q.Reorders q') (h' : q'.Reorders q'') : q.Reorders q'' := by
  cases h with
  | refl => exact h'
  | machine m active =>
    cases h' with
    | refl => exact .machine m active
    | machine _ active' => exact .machine m active'
  | resource r active =>
    cases h' with
    | refl => exact .resource r active
    | resource _ active' => exact .resource r active'

theorem builtIn (h : q.Reorders q') (builtIn : q.BuiltIn) : q'.BuiltIn := by
  cases h <;> exact builtIn

theorem hasBinary (h : q.Reorders q') (binary : q.HasBinary d) : q'.HasBinary d := by
  cases h <;> exact binary

theorem wakes (h : q.Reorders q') {v : Watched} {event : Event} (wakes : q'.Wakes v event) :
    q.Wakes v event := by
  cases h with
  | refl => exact wakes
  | machine m active => cases v <;> exact wakes
  | resource r active => cases v <;> exact wakes

end Reorders

theorem reorders_of_run {status : Status} {s s' : Store} (builtIn : q.BuiltIn)
    (ran : (Propagator.run context q).run s = .ok ((q', status), s')) : q.Reorders q' := by
  cases q with
  | synchronisation p =>
    obtain ⟨p', rfl, lifted⟩ := lift_spec ran
    obtain ⟨rfl, -⟩ := plain_spec (x := p.propagate context) lifted
    exact .refl _
  | precedence p =>
    obtain ⟨p', rfl, lifted⟩ := lift_spec ran
    obtain ⟨rfl, -⟩ := plain_spec (x := p.propagate context) lifted
    exact .refl _
  | checker c =>
    obtain ⟨c', rfl, lifted⟩ := lift_spec ran
    obtain ⟨rfl, -⟩ := plain_spec (x := c.propagate) lifted
    exact .refl _
  | machine m =>
    obtain ⟨m', rfl, lifted⟩ := lift_spec ran
    obtain ⟨length, t, -, dropped, -⟩ := Machine.run_spec lifted
    obtain ⟨active, cells, -, rfl, -⟩ := Machine.dropAbsent_spec dropped
    exact .machine m active
  | resource r =>
    obtain ⟨r', rfl, lifted⟩ := lift_spec ran
    obtain ⟨start, stop, length, t, -, -, -, dropped, -⟩ := Resource.run_spec lifted
    obtain ⟨active, cells, -, rfl, -⟩ := Resource.dropDone_spec dropped
    exact .resource r active
  | script p => exact builtIn.elim

/-- The order of the members of the active set does not matter. -/
theorem AtRest.of_agrees (rest : q.AtRest context d values) (reorders : q.Reorders q')
    (agrees : q.Agrees values q') : q'.AtRest context d values := by
  rcases rest with off | idles
  · exact .inl off
  right
  cases reorders with
  | refl => exact idles
  | machine m active =>
    obtain ⟨n, ks, steady⟩ := idles
    obtain ⟨⟨size, has⟩, -⟩ := List.forall₂_cons.1 agrees
    exact ⟨n, ks, steady.permuted size (has n steady.size)⟩
  | resource r active =>
    obtain ⟨m, ks, cs, steady⟩ := idles
    obtain ⟨⟨size, has⟩, -⟩ := List.forall₂_cons.1 agrees
    exact ⟨m, ks, cs, steady.permuted size (has m steady.size)⟩

section Quiet

variable {s s' : Store} (wellFormed : s.domains.WellFormed) (builtIn : q.BuiltIn)
  (invariant : q.guarantee.Invariant context.activity q s.domains s.cells.values)
  (nodup : (context.activity :: q.cells).Nodup)
include wellFormed builtIn invariant nodup

/-- A run that succeeds and changes no row in scope leaves the propagator at rest. -/
theorem atRest_of_run (ran : (Propagator.run context q).run s = .ok ((q', .ok ()), s'))
    (agrees : s.domains.Agrees q.scope s'.domains) :
    q'.AtRest context s'.domains s'.cells.values := by
  -- The rules without an active set are local.
  have plain {x : Propagation Unit} (local_x : Local [context.activity] q.scope x)
      (ran : x.exec s = .ok (.ok (), s')) : Rests [context.activity] q.scope s'.domains x () := by
    obtain ⟨same, rests⟩ := local_x.rests s () s' wellFormed ran agrees
    rw [same]
    exact rests
  cases q with
  | synchronisation p =>
    obtain ⟨p', rfl, lifted⟩ := lift_spec ran
    obtain ⟨rfl, propagated⟩ := plain_spec (x := p.propagate context) lifted
    exact .inr (plain (p'.local_propagate (by simp)) propagated)
  | precedence p =>
    obtain ⟨p', rfl, lifted⟩ := lift_spec ran
    obtain ⟨rfl, propagated⟩ := plain_spec (x := p.propagate context) lifted
    exact .inr (plain (p'.local_propagate (by simp)) propagated)
  | checker c =>
    obtain ⟨c', rfl, lifted⟩ := lift_spec ran
    obtain ⟨rfl, propagated⟩ := plain_spec (x := c.propagate) lifted
    exact .inr (plain c'.local_propagate propagated)
  | machine m =>
    obtain ⟨_, n, eq, fits, -, -⟩ := invariant
    cases eq
    obtain ⟨m', rfl, lifted⟩ := lift_spec ran
    exact Machine.steady_of_run wellFormed fits lifted agrees
  | resource r =>
    obtain ⟨_, m, span, eq, fits, -, -⟩ := invariant
    cases eq
    obtain ⟨r', rfl, lifted⟩ := lift_spec ran
    exact Resource.steady_of_run wellFormed fits nodup lifted agrees
  | script p => exact builtIn.elim

/-- Another run of an active propagator at rest succeeds and changes no domain, unless it is a
resource of whose activities some sum of heights does not fit a word. -/
theorem exists_run_of_atRest (rest : q.AtRest context s.domains s.cells.values)
    (active : s.cells.values.get? context.activity.index ≠ some 0)
    (inside : context.activity.index < s.cells.values.size) :
    (∃ q' s', (Propagator.run context q).run s = .ok ((q', .ok ()), s') ∧
      s'.domains = s.domains) ∨
      ∃ r, q = .resource r ∧ ¬ Activity.SumsHold s.domains r.activities.toList ∧
        (Propagator.run context q).run s = .error .additionOverflow := by
  have idles := rest.resolve_left active
  have plain {x : Propagation Unit} (rests : Rests [context.activity] q.scope s.domains x ()) :
      ∃ s', x.exec s = .ok (.ok (), s') ∧ s'.domains = s.domains := by
    obtain ⟨_, s', ran, -, same, -⟩ := rests s (.refl _ _) (by simpa using inside)
    exact ⟨s', ran, same⟩
  cases q with
  | synchronisation p =>
    obtain ⟨s', propagated, same⟩ := plain idles
    have ran : (Propagator.run context p).run s = .ok ((p, .ok ()), s') :=
      run_bind_eq_ok_iff.2 ⟨_, s', propagated, rfl⟩
    exact .inl ⟨_, s', lift_of_run ran, same⟩
  | precedence p =>
    obtain ⟨s', propagated, same⟩ := plain idles
    have ran : (Propagator.run context p).run s = .ok ((p, .ok ()), s') :=
      run_bind_eq_ok_iff.2 ⟨_, s', propagated, rfl⟩
    exact .inl ⟨_, s', lift_of_run ran, same⟩
  | checker c =>
    obtain ⟨s', propagated, same⟩ := plain idles
    have ran : (Propagator.run context c).run s = .ok ((c, .ok ()), s') :=
      run_bind_eq_ok_iff.2 ⟨_, s', propagated, rfl⟩
    exact .inl ⟨_, s', lift_of_run ran, same⟩
  | machine m =>
    obtain ⟨_, n, eq, fits, -, -⟩ := invariant
    cases eq
    obtain ⟨n₀, ks, steady⟩ := idles
    obtain rfl : n₀ = n := by
      have known := steady.size.symm.trans fits.size
      simpa using known
    obtain ⟨m', s', ran, same⟩ := Machine.exists_run_of_steady context wellFormed fits steady
    exact .inl ⟨_, s', lift_of_run ran, same⟩
  | resource r =>
    obtain ⟨_, m, span, eq, fits, -, -⟩ := invariant
    cases eq
    obtain ⟨m₀, ks, cs, steady⟩ := idles
    obtain rfl : m₀ = m := by
      have known := steady.size.symm.trans fits.size
      simpa using known
    rcases Resource.exists_run_of_steady context wellFormed fits steady nodup inside with
      ⟨r', s', ran, same⟩ | ⟨beyond, overflows⟩
    · exact .inl ⟨_, s', lift_of_run ran, same⟩
    · exact .inr ⟨r, rfl, fits.activities ▸ beyond, lift_of_fault overflows⟩
  | script p => exact builtIn.elim

end Quiet

end Rule

end Scheduling
