import Scheduling.Proofs.Reachability

/-!
# Runs without restrictions

Any operation may follow any other: nothing has to be undone after a failure, and operations may go
on when the problem is known to be infeasible. The engines of such runs are sane all the same, and
what propagators keep is tracked.

Results:
* `Operation.Moves`: what an operation does to the engine, whatever its outcome.
* `FreeRuns`, `Accessible`: the runs, and the states of those that start without variables.
* `sane_of_accessible`, `Guarantee.covers_of_accessible`: the engines of all these states.
* `Engine.Visited`, `Guarantee.covers_of_visited`: those at which propagators are called as well.
-/

namespace Scheduling

/-! ## What an operation does to the engine -/

namespace Operation

/-- The operation creates no variable and no propagator. -/
def IsPlain : Operation → Prop
  | newInteger _ _ => False
  | newInterval _ _ => False
  | post _ => False
  | _ => True

/-- What an operation does to the engine: it creates something, moves between checkpoints, or
propagates from an engine that was prepared for that. -/
inductive Moves (s : Solver Rule) : Operation → Engine Rule → Prop
  | newInteger {lower upper : Int} (le : lower ≤ upper) :
    Moves s (.newInteger lower upper) (s.engine.newInteger ⟨lower, upper⟩).2
  | newInterval {bounds : Bounds} {presence : Presence} {row : Interval}
    (consistent : Interval.ofBounds bounds presence = .ok row) :
    Moves s (.newInterval bounds presence) (s.engine.withDomains (s.engine.domains.addInterval row))
  | checkpoint : Moves s .checkpoint s.engine.checkpoint
  | undoTo {k : Nat} {e : Engine Rule} (undone : s.engine.undoTo k = .ok e) : Moves s (.undoTo k) e
  | refused {x : Posted} (infeasible : s.isInfeasible = true) : Moves s (.post x) s.engine
  | silent {op : Operation} {e : Engine Rule} (plain : op.IsPlain) (same : s.engine.Silently e) :
    Moves s op e
  | propagated {op : Operation} {e e' e'' : Engine Rule} {status : Status} (enters : op.Enters s e)
    (ran : e.propagate = .ok (status, e')) (same : e'.Silently e'') : Moves s op e''

theorem moves_of_run {op : Operation} {s : Solver Rule} {c : State} (ran : op.run s = .ok c) :
    op.Moves s c.solver.engine := by
  cases op with
  | newInteger lower upper =>
    obtain ⟨⟨x, s'⟩, made, last⟩ := bind_eq_ok_iff.1 ran
    cases last
    obtain ⟨le, -, rfl⟩ := Session.newInteger_spec made
    exact .newInteger le
  | newInterval bounds presence =>
    obtain ⟨⟨i, s'⟩, made, last⟩ := bind_eq_ok_iff.1 ran
    cases last
    obtain ⟨e, created, rfl⟩ := Session.onEngine_eq_ok_iff.1 made
    obtain ⟨row, consistent, -, rfl⟩ := Engine.newInterval_spec created
    exact .newInterval consistent
  | decide d =>
    obtain ⟨⟨status, s'⟩, imposed, last⟩ := bind_eq_ok_iff.1 ran
    cases last
    rcases Session.impose_spec imposed with
      ⟨-, rfl⟩ | ⟨feasible, ⟨-, same, -⟩ | ⟨e, e', changed, -, propagated, same, -⟩⟩
    · exact .silent trivial (.refl _)
    · exact .silent trivial same
    · exact .propagated ⟨feasible, changed⟩ propagated same
  | propagate =>
    obtain ⟨⟨status, s'⟩, requested, last⟩ := bind_eq_ok_iff.1 ran
    cases last
    rcases Session.propagate_spec requested with ⟨-, rfl⟩ | ⟨feasible, e, propagated, same, -⟩
    · exact .silent trivial (.refl _)
    · exact .propagated ⟨feasible, rfl⟩ propagated same
  | checkpoint =>
    cases ran
    exact .checkpoint
  | undoTo k =>
    obtain ⟨⟨_, s'⟩, undone, last⟩ := bind_eq_ok_iff.1 ran
    cases last
    obtain ⟨e, returned, rfl⟩ := Session.onEngine_eq_ok_iff.1 undone
    obtain ⟨e, undone, last⟩ := bind_eq_ok_iff.1 returned
    cases last
    exact .undoTo undone
  | post x =>
    obtain ⟨⟨result, s'⟩, posted, last⟩ := bind_eq_ok_iff.1 ran
    cases last
    rcases Posting.add_spec posted with
      ⟨infeasible, rfl, -⟩ | ⟨feasible, id, e, status, e', installed, propagated, same, -⟩
    · exact .refused infeasible
    · exact .propagated ⟨feasible, id, installed⟩ propagated same
  | say m =>
    cases ran
    exact .silent trivial (s.engine.silently_say m)
  | takeNotes =>
    obtain ⟨⟨notes, s'⟩, taken, last⟩ := bind_eq_ok_iff.1 ran
    cases last
    obtain ⟨e, given, rfl⟩ := Session.onEngine_eq_ok_iff.1 taken
    cases given
    exact .silent trivial s.engine.silently_takeNotes

/-- A move without propagation is quiet. -/
theorem Moves.quietly_or_propagated {op : Operation} {s : Solver Rule} {e : Engine Rule}
    (h : op.Moves s e) (valid : op.Valid s) :
    s.engine.Quietly e ∨ ∃ e₀ e₁ status, op.Enters s e₀ ∧ e₀.propagate = .ok (status, e₁) ∧
      e₁.Silently e := by
  cases h with
  | newInteger le => exact .inl (.newInteger ⟨le, valid.1, valid.2⟩)
  | newInterval consistent =>
    exact .inl (.addInterval (Interval.wellFormed_of_ofBounds valid consistent))
  | checkpoint => exact .inl .checkpoint
  | undoTo undone => exact .inl (.undoTo undone)
  | refused _ => exact .inl (.silent (.refl _))
  | silent _ same => exact .inl (.silent same)
  | propagated enters ran same => exact .inr ⟨_, _, _, enters, ran, same⟩

end Operation

/-! ## Runs -/

/-- Runs in which any operation may follow any other. -/
inductive FreeRuns : State → State → Prop
  | refl {c : State} : FreeRuns c c
  | next {c c' c'' : State} {op : Operation} : FreeRuns c c' → op.Valid c'.solver →
    op.run c'.solver = .ok c'' → FreeRuns c c''

/-- The states of the runs that start without variables and propagators. -/
def Accessible (c : State) : Prop := FreeRuns ⟨.empty, .done⟩ c

theorem FreeRuns.trans {a b c : State} (h : FreeRuns a b) (h' : FreeRuns b c) : FreeRuns a c := by
  induction h' with
  | refl => exact h
  | next _ valid ran ih => exact .next ih valid ran

theorem Steps.freeRuns {P : PropagatorId → Engine Rule → Prop} {c c' : State} (h : Steps P c c') :
    FreeRuns c c' := by
  induction h with
  | refl => exact .refl
  | next _ step _ ih => exact .next ih step.valid step.ran

theorem Reachable.accessible {c : State} (h : Reachable c) : Accessible c := h.freeRuns

/-- An engine of a run: between two operations, or when a propagator is called. -/
inductive Engine.Visited : Engine Rule → Prop
  | rest {c : State} (accessible : Accessible c) : Visited c.solver.engine
  | call {c : State} {op : Operation} {p : PropagatorId} {f : Engine Rule}
    (accessible : Accessible c) (valid : op.Valid c.solver) (calls : op.Calls c.solver p f) :
    Visited f

theorem sane_of_accessible {c : State} (h : Accessible c) : c.solver.engine.Sane := by
  induction h with
  | refl => exact Engine.sane_empty
  | next _ valid ran ih =>
    rcases (Operation.moves_of_run ran).quietly_or_propagated valid with
      moved | ⟨e₀, e₁, status, enters, looped, same⟩
    · exact moved.sane ih
    · exact same.sane (Engine.sane_of_loop (enters.sane ih) looped).1

namespace Guarantee

variable {G : Rule → Guarantee}

/-- All propagators of a run are covered. -/
theorem covers_of_accessible (family : Family G) {c : State} (h : Accessible c) :
    Covers G c.solver.engine := by
  induction h with
  | refl =>
    intro p q row
    cases row
  | next before valid ran ih =>
    have sane := sane_of_accessible before
    rcases (Operation.moves_of_run ran).quietly_or_propagated valid with
      moved | ⟨e₀, e₁, status, enters, looped, same⟩
    · exact ih.quietly family sane moved
    · have sane₀ := enters.sane sane
      exact ((ih.enters family sane valid enters).loop family sane₀ looped).quietly family
        (Engine.sane_of_loop sane₀ looped).1 (.silent same)

/-- Whenever a propagator is called, all propagators are covered. -/
theorem Covers.callsWithin {e f : Engine Rule} {rounds : Nat} {called : PropagatorId}
    (covers : Covers G e) (family : Family G) (sane : e.Sane)
    (calls : e.CallsWithin rounds called f) : Covers G f := by
  refine covers.of_forall family (Engine.sane_of_callsWithin sane calls).2.size
    fun p activity q row tracked => ?_
  exact (tracks_of_callsWithin tracked (family.lawful q) sane (fun _ _ _ _ => family.allowed ..)
    calls).2

/-- The engines of a run are sane and cover their propagators. -/
theorem covers_of_visited (family : Family G) {f : Engine Rule} (h : f.Visited) :
    f.Sane ∧ Covers G f := by
  cases h with
  | rest accessible => exact ⟨sane_of_accessible accessible, covers_of_accessible family accessible⟩
  | call accessible valid calls =>
    obtain ⟨e, enters, called⟩ := calls
    have sane := sane_of_accessible accessible
    have covers := (covers_of_accessible family accessible).enters family sane valid enters
    exact ⟨(Engine.sane_of_callsWithin (enters.sane sane) called).1,
      covers.callsWithin family (enters.sane sane) called⟩

end Guarantee

end Scheduling
