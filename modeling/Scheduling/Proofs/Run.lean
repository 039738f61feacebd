import Scheduling.Constraint.Cumulative
import Scheduling.Constraint.NoOverlap
import Scheduling.Proofs.Operations

/-!
# Runs of a solver

A run is a sequence of operations: new variables, decisions, propagation, checkpoints and returns,
and new propagators of any kind. When a propagation fails below a checkpoint, the next operation has
to be a return. The constraints of the library are posted by such operations, one after the other.

Results:
* `Operation.run`, `Step`, `Steps`, `Reachable`: the runs.
* `Operation.Calls`: the calls of propagators that an operation makes.
* `Engine.invariant_of_loop`: what calls keep is kept by propagation.
* `sane_of_reachable`: every engine of a run is sane, unless the problem is known to be infeasible.
* `Guarantee.tracks_of_steps`, `Guarantee.holds_of_steps`: what is tracked about a propagator, and
  that the domains are accepted, is kept by every run.
-/

namespace Scheduling

/-- The intervals and the heights of the activities exist. -/
def Domains.Knows (d : Domains) (activities : List Activity) : Prop :=
  ∀ a ∈ activities, a.interval.index < d.intervals.size ∧ a.height.base.index < d.integers.size

/-- A propagator as it is posted. -/
inductive Posted
  | synchronisation (p : Synchronisation)
  | precedence (p : Precedence)
  | checker (p : Checker)
  | machine (intervals : List IntervalId)
  | resource (activities : List Activity) (capacity : Capacity) (options : ResourceOptions)
  | script (priority : Priority) (watches : List Watch) (lists : List (List Action))

namespace Posted

/-- How it is added to an engine. -/
def blueprint : Posted → Blueprint Rule
  | synchronisation p => p.blueprint.map Rule.synchronisation
  | precedence p => p.blueprint.map Rule.precedence
  | checker p => p.blueprint.map Rule.checker
  | machine intervals => (Machine.blueprint intervals).map Rule.machine
  | resource activities capacity options =>
    (Resource.blueprint activities capacity options).map Rule.resource
  | script priority watches lists =>
    ⟨watches, [], fun _ _ => .script ⟨priority, lists, 0⟩, fun p => [.created p]⟩

/-- Machines and resources are posted over variables that exist, and the limits of a resource are
words of 64 bits. -/
def Valid (d : Domains) : Posted → Prop
  | machine intervals => ∀ i ∈ intervals, i.index < d.intervals.size
  | resource activities capacity _ =>
    d.Knows activities ∧ Width.w64.Holds capacity.minimum ∧
      Width.w64.Holds capacity.maximum
  | _ => True

theorem standard (p : Posted) : p.blueprint.Standard := by
  intro id cell
  cases p <;> rfl

end Posted

/-- How an operation ended. A propagation may fail; an operation is refused if it ends without
having changed anything. -/
inductive Outcome
  | done
  | refused
  | failed
  deriving DecidableEq

/-- One operation on a solver. -/
inductive Operation
  | newInteger (lower upper : Int)
  | newInterval (bounds : Bounds) (presence : Presence)
  | decide (d : Decision)
  | propagate
  | checkpoint
  | undoTo (checkpoint : Nat)
  | post (p : Posted)
  | say (m : Message)
  | takeNotes

/-- A solver and the outcome of the last operation. -/
structure State where
  solver : Solver Rule
  last : Outcome

namespace Operation

/-- The values of integer variables are words of 32 bits, the bounds of intervals lie within the
horizon, and propagators are posted over variables that exist. -/
def Valid (s : Solver Rule) : Operation → Prop
  | newInteger lower upper => Width.w32.Holds lower ∧ Width.w32.Holds upper
  | newInterval bounds _ => bounds.WithinHorizon
  | post p => p.Valid s.domains
  | _ => True

/-- The outcome of a propagation. -/
def outcome : Status → Outcome
  | .ok () => .done
  | .error _ => .failed

/-- The outcome of a decision. One that leaves no value is refused before any propagation. -/
def decided (s : Solver Rule) (d : Decision) (status : Status) : Outcome :=
  match d.write s.domains with
  | .ok none => .refused
  | _ => if s.isInfeasible then .refused else outcome status

/-- The outcome of posting a propagator. -/
def posted : Except PostError PropagatorId → Outcome
  | .ok _ => .done
  | .error .infeasiblePropagator => .failed
  | .error _ => .refused

/-- Performs the operation. -/
def run (s : Solver Rule) : Operation → Except Fault State
  | newInteger lower upper => do
    let (_, s') ← (Session.newInteger lower upper).run s
    return ⟨s', .done⟩
  | newInterval bounds presence => do
    let (_, s') ← (Session.onEngine (·.newInterval bounds presence)).run s
    return ⟨s', .done⟩
  | decide d => do
    let (status, s') ← (Session.impose d.write).run s
    return ⟨s', decided s d status⟩
  | propagate => do
    let (status, s') ← Session.propagate.run s
    return ⟨s', if s.isInfeasible then .refused else outcome status⟩
  | checkpoint => do
    let (_, s') ← Session.checkpoint.run s
    return ⟨s', .done⟩
  | undoTo k => do
    let (_, s') ← (Session.undoTo k).run s
    return ⟨s', .done⟩
  | post p => do
    let (result, s') ← (Posting.add p.blueprint).run.run s
    return ⟨s', posted result⟩
  | say m => do
    let (_, s') ← (Session.say m).run s
    return ⟨s', .done⟩
  | takeNotes => do
    let (_, s') ← Session.takeNotes.run s
    return ⟨s', .done⟩

/-- The operation starts to propagate from the given engine. -/
def Enters (s : Solver Rule) (e : Engine Rule) : Operation → Prop
  | propagate => s.isInfeasible = false ∧ e = s.engine
  | decide d => s.isInfeasible = false ∧ s.engine.change d.write = .ok (.ok (), e)
  | post p => s.isInfeasible = false ∧ ∃ id, s.engine.install p.blueprint = .ok (id, e)
  | _ => False

/-- The operation calls the propagator `p` on the engine `f`. -/
def Calls (op : Operation) (s : Solver Rule) (p : PropagatorId) (f : Engine Rule) : Prop :=
  ∃ e, op.Enters s e ∧ e.Calls p f

end Operation

/-- One step of a run. After a propagation that failed below a checkpoint the search goes back. -/
structure Step (op : Operation) (c c' : State) : Prop where
  valid : op.Valid c.solver
  back : c.last = .failed → c.solver.isInfeasible = true ∨ ∃ k, op = .undoTo k
  ran : op.run c.solver = .ok c'

/-- Runs on which every call of a propagator has the property `P`. -/
inductive Steps (P : PropagatorId → Engine Rule → Prop) : State → State → Prop
  | refl {c : State} : Steps P c c
  | next {c c' c'' : State} {op : Operation} : Steps P c c' → Step op c' c'' →
    (∀ p f, op.Calls c'.solver p f → P p f) → Steps P c c''

/-- Runs. -/
abbrev Runs : State → State → Prop := Steps fun _ _ => True

/-- The states of the runs that start without variables and propagators. -/
def Reachable (c : State) : Prop := Runs ⟨.empty, .done⟩ c

theorem Steps.trans {P : PropagatorId → Engine Rule → Prop} {a b c : State} (h : Steps P a b)
    (h' : Steps P b c) : Steps P a c := by
  induction h' with
  | refl => exact h
  | next _ step calls ih => exact .next ih step calls

theorem Steps.mono {P Q : PropagatorId → Engine Rule → Prop} {a b : State} (h : Steps P a b)
    (le : ∀ p f, P p f → Q p f) : Steps Q a b := by
  induction h with
  | refl => exact .refl
  | next _ step calls ih => exact .next ih step fun p f called => le p f (calls p f called)

/-! ## What a step does to the engine -/

theorem Decision.writes (d : Decision) : Engine.Writes d.write :=
  fun _ _ wellFormed wrote => d.evolves_of_write wellFormed wrote

/-- Nothing but the notes, the pending events and the agenda differ. -/
structure Engine.Silently (e e' : Engine Rule) : Prop where
  sane : e.Sane → e'.Sane
  activity : e'.activity = e.activity
  propagators : e'.propagators = e.propagators
  watches : e'.watches = e.watches
  cells : e'.store.cells = e.store.cells
  depth : e'.domains.depth = e.domains.depth
  past : ∀ k, e'.domains.past k = e.domains.past k

/-- The steps without propagation. -/
inductive Engine.Quietly : Engine Rule → Engine Rule → Prop
  | newInteger {e : Engine Rule} {row : IntegerDomain} (wellFormed : row.WellFormed) :
    Quietly e (e.newInteger row).2
  | addInterval {e : Engine Rule} {row : Interval} (wellFormed : row.WellFormed) :
    Quietly e (e.withDomains (e.domains.addInterval row))
  | checkpoint {e : Engine Rule} : Quietly e e.checkpoint
  | undoTo {e e' : Engine Rule} {k : Nat} (undone : e.undoTo k = .ok e') : Quietly e e'
  | silent {e e' : Engine Rule} (same : e.Silently e') : Quietly e e'

/-- What a step does, unless the problem is found to be infeasible: it does without propagation, or
it propagates from an engine that was prepared for that. -/
inductive Step.Effect (op : Operation) (c c' : State) : Prop
  | infeasible (h : c'.solver.isInfeasible = true)
  | quiet (feasible : c'.solver.isInfeasible = false) (moved : c.solver.engine.Quietly c'.solver.engine)
    (last : c'.last ≠ .failed)
    (back : c.last = .failed → ∃ k, c.solver.engine.undoTo k = .ok c'.solver.engine)
  | propagated {e e' : Engine Rule} {status : Status} (feasible : c'.solver.isInfeasible = false)
    (start : c.last ≠ .failed) (enters : op.Enters c.solver e)
    (ran : e.propagate = .ok (status, e')) (last : c'.last = Operation.outcome status)
    (same : c'.solver.engine = e' ∨ c'.solver.engine = e'.dropEvents)

namespace Engine

theorem Silently.refl (e : Engine Rule) : e.Silently e :=
  ⟨id, rfl, rfl, rfl, rfl, rfl, fun _ => rfl⟩

theorem Silently.trans {a b c : Engine Rule} (h : a.Silently b) (h' : b.Silently c) :
    a.Silently c where
  sane sane := h'.sane (h.sane sane)
  activity := h'.activity.trans h.activity
  propagators := h'.propagators.trans h.propagators
  watches := h'.watches.trans h.watches
  cells := h'.cells.trans h.cells
  depth := h'.depth.trans h.depth
  past k := (h'.past k).trans (h.past k)

theorem silently_dropEvents (e : Engine Rule) : e.Silently e.dropEvents :=
  ⟨Sane.dropEvents, rfl, rfl, rfl, rfl, rfl, fun _ => rfl⟩

theorem silently_say (e : Engine Rule) (m : Message) : e.Silently (e.say m) :=
  ⟨fun sane => sane.say m, rfl, rfl, rfl, rfl, rfl, fun _ => rfl⟩

theorem silently_takeNotes (e : Engine Rule) : e.Silently e.takeNotes.2 :=
  ⟨fun sane => { sane with store := ⟨sane.store.depth, sane.store.recordedRows,
    sane.store.recordedCells, sane.store.wellFormed, sane.store.narrows⟩ }, rfl, rfl, rfl, rfl, rfl,
    fun _ => rfl⟩

theorem silently_abandon (e : Engine Rule) : e.Silently e.abandon :=
  ⟨Sane.abandon, rfl, rfl, rfl, rfl, rfl, fun _ => rfl⟩

/-- What calls keep is kept by propagation, unless it is about notes, pending events or the agenda. -/
theorem invariant_of_loop {I : Engine Rule → Prop}
    (silent : ∀ {e e' : Engine Rule}, e.Sane → I e → e.Silently e' → I e')
    (call : ∀ {e e' : Engine Rule} {p : PropagatorId} {status : Status}, e.Sane → I e →
      e.call p = .ok (status, e') → I e')
    {e e' : Engine Rule} {rounds : Nat} {status : Status} (sane : e.Sane) (start : I e)
    (ran : e.loop rounds = .ok (status, e')) : I e' := by
  induction rounds generalizing e with
  | zero => cases ran
  | succ rounds ih =>
    obtain ⟨e₁, notified, rest⟩ := bind_eq_ok_iff.1 ran
    cases popped : e₁.agenda.pop with
    | mk taken agenda =>
      obtain ⟨sane₁, -, eq, -⟩ := round_spec sane notified popped
      have handed : e.Silently { e₁ with agenda } :=
        ⟨fun _ => sane₁, by rw [eq]; rfl, by rw [eq]; rfl, by rw [eq]; rfl, by rw [eq]; rfl,
          by rw [eq]; rfl, fun k => by rw [eq]; rfl⟩
      have first := silent sane start handed
      rw [popped] at rest
      cases taken with
      | none =>
        cases rest
        exact first
      | some p =>
        obtain ⟨⟨status', e₂⟩, visited, last⟩ := bind_eq_ok_iff.1 rest
        have second : I e₂ := by
          rcases visit_spec visited with ⟨-, -, rfl⟩ | ⟨-, e₃, called, done, failed⟩
          · exact first
          · have kept := call sane₁ first called
            cases status' with
            | ok => exact done rfl ▸ kept
            | error cause =>
              obtain ⟨m, rfl⟩ := failed ⟨cause, rfl⟩
              exact silent (sane_of_call sane₁ called) kept
                ((e₃.silently_say m).trans (silently_abandon _))
        cases status' with
        | error cause =>
          cases last
          exact second
        | ok => exact ih (sane_of_visit sane₁ visited).1 second last

end Engine

/-- The solver after a propagation with the given outcome. -/
def Solver.ended {P : Type} (s : Solver P) : Status → Solver P
  | .ok () => s
  | .error _ => s.markInfeasible

/-- The engine after a decision whose propagation had the given outcome. -/
def Engine.closed {P : Type} (e : Engine P) : Status → Engine P
  | .ok () => e
  | .error _ => e.dropEvents

theorem Engine.silently_closed (e : Engine Rule) (status : Status) :
    e.Silently (e.closed status) := by
  cases status
  · exact e.silently_dropEvents
  · exact .refl e

theorem Solver.ended_cases (s : Solver Rule) (status : Status) :
    (s.ended status).isInfeasible = true ∨ s.ended status = s := by
  cases status with
  | ok => exact .inr rfl
  | error cause =>
    by_cases root : s.engine.depth = 0
    · exact .inl (by simp [ended, markInfeasible, root])
    · exact .inr (by simp [ended, markInfeasible, root])

theorem Solver.silently_ended (s : Solver Rule) (status : Status) :
    s.engine.Silently (s.ended status).engine := by
  cases status with
  | ok => exact .refl _
  | error cause =>
    by_cases root : s.engine.depth = 0
    · simpa [ended, markInfeasible, root] using s.engine.silently_say _
    · simpa [ended, markInfeasible, root] using Engine.Silently.refl _

namespace Session

/-- What an operation on the engine does to a solver. -/
theorem onEngine_eq_ok_iff {P α : Type} {f : Engine P → Except Fault (α × Engine P)}
    {s s' : Solver P} {a : α} :
    (onEngine f).run s = .ok (a, s') ↔ ∃ e, f s.engine = .ok (a, e) ∧ s' = s.withEngine e := by
  constructor
  · intro h
    obtain ⟨t, t', got, rest⟩ := run_bind_eq_ok_iff.1 h
    cases got
    obtain ⟨r, t, ran, rest⟩ := run_bind_eq_ok_iff.1 rest
    obtain ⟨ran, rfl⟩ := run_liftM_eq_ok_iff.1 ran
    cases rest
    exact ⟨r.2, ran, rfl⟩
  · rintro ⟨e, ran, rfl⟩
    exact run_bind_eq_ok_iff.2 ⟨s, s, rfl, run_bind_eq_ok_iff.2
      ⟨(a, e), s, run_liftM_eq_ok_iff.2 ⟨ran, rfl⟩, rfl⟩⟩

/-- What a new variable does. -/
theorem newInteger_spec {P : Type} {s s' : Solver P} {lower upper : Int} {x : IntegerId}
    (h : (newInteger lower upper).run s = .ok (x, s')) :
    lower ≤ upper ∧ x = s.domains.nextInteger ∧
      s' = s.withEngine (s.engine.newInteger ⟨lower, upper⟩).2 := by
  simp only [newInteger] at h
  split at h
  · obtain ⟨_, _, thrown, -⟩ := run_bind_eq_ok_iff.1 h
    cases thrown
  · rename_i le
    obtain ⟨e, made, rfl⟩ := onEngine_eq_ok_iff.1 h
    cases made
    exact ⟨by omega, rfl, rfl⟩

section Outcomes

variable {P : Type} [Propagator P] {s s' : Solver P} {status : Status}

/-- How a request to propagate ends. -/
theorem propagate_cases (h : propagate.run s = .ok (status, s')) :
    s.isInfeasible = true ∧ status = .error .emptyDomain ∧ s' = s ∨
      s.isInfeasible = false ∧ ∃ e, s.engine.propagate = .ok (status, e) ∧
        s' = (s.withEngine e).ended status := by
  cases known : s.isInfeasible with
  | true =>
    left
    obtain ⟨t, t', got, rest⟩ := run_bind_eq_ok_iff.1 h
    cases got
    simp only [known, if_true] at rest
    cases rest
    exact ⟨rfl, rfl, rfl⟩
  | false =>
    right
    obtain ⟨t, t', got, rest⟩ := run_bind_eq_ok_iff.1 h
    cases got
    simp only [known, Bool.false_eq_true, if_false] at rest
    obtain ⟨status', s₁, ran, rest⟩ := run_bind_eq_ok_iff.1 rest
    obtain ⟨e, propagated, rfl⟩ := onEngine_eq_ok_iff.1 ran
    cases status' <;> cases rest <;> exact ⟨rfl, e, propagated, rfl⟩

/-- How a decision ends. -/
theorem impose_cases {write : Domains → Except Fault (Option Domains)}
    (h : (impose write).run s = .ok (status, s')) :
    s.isInfeasible = true ∧ status = .error .emptyDomain ∧ s' = s ∨
      s.isInfeasible = false ∧
        (write s.domains = .ok none ∧ status = .error .emptyDomain ∧
            s' = (s.withEngine s.engine.dropEvents).ended status ∨
          ∃ d e, write s.domains = .ok (some d) ∧
            (s.engine.withDomains d).propagate = .ok (status, e) ∧
            s' = (s.withEngine (e.closed status)).ended status) := by
  cases known : s.isInfeasible with
  | true =>
    left
    obtain ⟨t, t', got, rest⟩ := run_bind_eq_ok_iff.1 h
    cases got
    simp only [known, if_true] at rest
    cases rest
    exact ⟨rfl, rfl, rfl⟩
  | false =>
    refine .inr ⟨rfl, ?_⟩
    obtain ⟨t, t', got, rest⟩ := run_bind_eq_ok_iff.1 h
    cases got
    simp only [known, Bool.false_eq_true, if_false] at rest
    obtain ⟨first, s₁, ran, rest⟩ := run_bind_eq_ok_iff.1 rest
    obtain ⟨e, changed, rfl⟩ := onEngine_eq_ok_iff.1 ran
    rcases Engine.change_spec changed with ⟨d, wrote, rfl, rfl⟩ | ⟨wrote, rfl, rfl⟩
    · obtain ⟨second, s₂, ran, rest⟩ := run_bind_eq_ok_iff.1 rest
      obtain ⟨e', propagated, rfl⟩ := onEngine_eq_ok_iff.1 ran
      right
      cases second <;> cases rest <;> exact ⟨d, e', wrote, propagated, rfl⟩
    · cases rest
      exact .inl ⟨wrote, rfl, rfl⟩

end Outcomes

/-- What a request to propagate does. -/
theorem propagate_spec {s s' : Solver Rule} {status : Status}
    (h : propagate.run s = .ok (status, s')) :
    s.isInfeasible = true ∧ s' = s ∨
      s.isInfeasible = false ∧ ∃ e, s.engine.propagate = .ok (status, e) ∧
        e.Silently s'.engine ∧ (s' = s.withEngine e ∨ s'.isInfeasible = true) := by
  rcases propagate_cases h with ⟨known, -, same⟩ | ⟨known, e, propagated, rfl⟩
  · exact .inl ⟨known, same⟩
  · exact .inr ⟨known, e, propagated, (s.withEngine e).silently_ended status,
      ((s.withEngine e).ended_cases status).symm⟩

/-- What a decision does. -/
theorem impose_spec {s s' : Solver Rule} {status : Status}
    {write : Domains → Except Fault (Option Domains)} (h : (impose write).run s = .ok (status, s')) :
    s.isInfeasible = true ∧ s' = s ∨
      s.isInfeasible = false ∧
        (write s.domains = .ok none ∧ s.engine.Silently s'.engine ∧
            (s'.isInfeasible = true ∨ s'.isInfeasible = false ∧ s'.engine = s.engine.dropEvents) ∨
          ∃ e e', s.engine.change write = .ok (.ok (), e) ∧ write s.domains ≠ .ok none ∧
            e.propagate = .ok (status, e') ∧ e'.Silently s'.engine ∧
            (s'.isInfeasible = true ∨ s'.isInfeasible = false ∧
              (s'.engine = e' ∨ s'.engine = e'.dropEvents))) := by
  rcases impose_cases h with ⟨known, -, same⟩ | ⟨known, ⟨wrote, -, rfl⟩ | ⟨d, e, wrote, propagated, rfl⟩⟩
  · exact .inl ⟨known, same⟩
  · refine .inr ⟨known, .inl ⟨wrote, s.engine.silently_dropEvents.trans
      ((s.withEngine s.engine.dropEvents).silently_ended status), ?_⟩⟩
    exact ((s.withEngine s.engine.dropEvents).ended_cases status).imp id fun same => by
      rw [same]
      exact ⟨known, rfl⟩
  · refine .inr ⟨known, .inr ⟨s.engine.withDomains d, e, ?_, by rw [wrote]; simp, propagated,
      (e.silently_closed status).trans ((s.withEngine (e.closed status)).silently_ended status), ?_⟩⟩
    · exact bind_eq_ok_iff.2 ⟨some d, wrote, rfl⟩
    · refine ((s.withEngine (e.closed status)).ended_cases status).imp id fun same => ?_
      rw [same]
      cases status with
      | ok => exact ⟨known, .inl rfl⟩
      | error cause => exact ⟨known, .inr rfl⟩

end Session

namespace Posting

/-- Two steps of a posting. -/
theorem run_bind_eq_ok_iff {P α β : Type} {x : Posting P α} {f : α → Posting P β}
    {s s'' : Solver P} {r : Except PostError β} :
    (x >>= f).run.run s = .ok (r, s'') ↔
      (∃ a s', x.run.run s = .ok (.ok a, s') ∧ (f a).run.run s' = .ok (r, s'')) ∨
        ∃ cause, x.run.run s = .ok (.error cause, s'') ∧ r = .error cause := by
  rw [ExceptT.run_bind, Scheduling.run_bind_eq_ok_iff]
  constructor
  · rintro ⟨result, s', first, second⟩
    cases result with
    | ok a => exact .inl ⟨a, s', first, second⟩
    | error cause =>
      cases second
      exact .inr ⟨cause, first, rfl⟩
  · rintro (⟨a, s', first, second⟩ | ⟨cause, first, rfl⟩)
    · exact ⟨.ok a, s', first, second⟩
    · exact ⟨.error cause, s'', first, rfl⟩

theorem run_liftM_eq_ok_iff {P α : Type} {x : Session P α}
    {s s' : Solver P} {r : Except PostError α} :
    (liftM x : Posting P α).run.run s = .ok (r, s') ↔
      ∃ a, x.run s = .ok (a, s') ∧ r = .ok a := by
  have lifted : (liftM x : Posting P α).run = x >>= fun a => pure (.ok a) := rfl
  rw [lifted, Scheduling.run_bind_eq_ok_iff]
  constructor
  · rintro ⟨a, s₁, first, second⟩
    cases second
    exact ⟨a, first, rfl⟩
  · rintro ⟨a, first, rfl⟩
    exact ⟨a, s', first, rfl⟩

/-- How the posting of a propagator ends. -/
theorem add_cases {P : Type} [Propagator P] {s s' : Solver P} {b : Blueprint P}
    {result : Except PostError PropagatorId} (h : (add b).run.run s = .ok (result, s')) :
    s.isInfeasible = true ∧ result = .error .infeasibleState ∧ s' = s ∨
      s.isInfeasible = false ∧ ∃ id e status e', s.engine.install b = .ok (id, e) ∧
        e.propagate = .ok (status, e') ∧ s' = (s.withEngine e').ended status ∧
        result = match status with
          | .ok () => .ok id
          | .error _ => .error .infeasiblePropagator := by
  cases known : s.isInfeasible with
  | true =>
    left
    rcases run_bind_eq_ok_iff.1 h with ⟨t, t', got, rest⟩ | ⟨cause, got, rfl⟩
    · cases got
      simp only [known, if_true] at rest
      cases rest
      exact ⟨rfl, rfl, rfl⟩
    · cases got
  | false =>
    refine .inr ⟨rfl, ?_⟩
    rcases run_bind_eq_ok_iff.1 h with ⟨t, t', got, rest⟩ | ⟨cause, got, rfl⟩
    · cases got
      simp only [known, Bool.false_eq_true, if_false] at rest
      rcases run_bind_eq_ok_iff.1 rest with ⟨r, t, ran, rest⟩ | ⟨cause, got, rfl⟩
      · obtain ⟨_, ran, eq⟩ := run_liftM_eq_ok_iff.1 ran
        cases eq
        obtain ⟨e', added, rfl⟩ := Session.onEngine_eq_ok_iff.1 ran
        obtain ⟨⟨id, status, e₁⟩, joined, last⟩ := bind_eq_ok_iff.1 added
        cases last
        obtain ⟨⟨id, e⟩, installed, joined⟩ := bind_eq_ok_iff.1 joined
        obtain ⟨⟨status, e₁⟩, propagated, last⟩ := bind_eq_ok_iff.1 joined
        cases last
        cases status <;> cases rest <;> exact ⟨id, e, _, e₁, installed, propagated, rfl, rfl⟩
      · obtain ⟨_, -, eq⟩ := run_liftM_eq_ok_iff.1 got
        cases eq
    · cases got

/-- What posting a propagator does. -/
theorem add_spec {s s' : Solver Rule} {b : Blueprint Rule}
    {result : Except PostError PropagatorId} (h : (add b).run.run s = .ok (result, s')) :
    s.isInfeasible = true ∧ s' = s ∧ result = .error .infeasibleState ∨
      s.isInfeasible = false ∧ ∃ id e status e', s.engine.install b = .ok (id, e) ∧
        e.propagate = .ok (status, e') ∧ e'.Silently s'.engine ∧
        (status = .ok () ∧ result = .ok id ∧ s' = s.withEngine e' ∨
          (∃ cause, status = .error cause) ∧ result = .error .infeasiblePropagator ∧
            (s' = s.withEngine e' ∨ s'.isInfeasible = true)) := by
  rcases add_cases h with ⟨known, refused, same⟩ |
    ⟨known, id, e, status, e', installed, propagated, rfl, answer⟩
  · exact .inl ⟨known, same, refused⟩
  · refine .inr ⟨known, id, e, status, e', installed, propagated,
      (s.withEngine e').silently_ended status, ?_⟩
    cases status with
    | ok => exact .inl ⟨rfl, answer, rfl⟩
    | error cause =>
      exact .inr ⟨⟨cause, rfl⟩, answer, ((s.withEngine e').ended_cases _).symm⟩

end Posting

/-- An infeasible problem stays infeasible, and nothing is propagated any more. -/
theorem Step.infeasible {op : Operation} {c c' : State} (h : Step op c c')
    (infeasible : c.solver.isInfeasible = true) : c'.solver.isInfeasible = true := by
  have ran := h.ran
  cases op with
  | newInteger lower upper =>
    obtain ⟨⟨x, s'⟩, made, last⟩ := bind_eq_ok_iff.1 ran
    cases last
    obtain ⟨-, -, rfl⟩ := Session.newInteger_spec made
    exact infeasible
  | newInterval bounds presence =>
    obtain ⟨⟨i, s'⟩, made, last⟩ := bind_eq_ok_iff.1 ran
    cases last
    obtain ⟨e, -, rfl⟩ := Session.onEngine_eq_ok_iff.1 made
    exact infeasible
  | decide d =>
    obtain ⟨⟨status, s'⟩, imposed, last⟩ := bind_eq_ok_iff.1 ran
    have same : s' = c.solver := by
      rcases Session.impose_spec imposed with ⟨-, same⟩ | ⟨feasible, -⟩
      · exact same
      · simp [infeasible] at feasible
    cases last
    exact same ▸ infeasible
  | propagate =>
    obtain ⟨⟨status, s'⟩, propagated, last⟩ := bind_eq_ok_iff.1 ran
    cases last
    rcases Session.propagate_spec propagated with ⟨-, rfl⟩ | ⟨feasible, -⟩
    · exact infeasible
    · simp [infeasible] at feasible
  | checkpoint =>
    cases ran
    exact infeasible
  | undoTo k =>
    obtain ⟨⟨_, s'⟩, undone, last⟩ := bind_eq_ok_iff.1 ran
    cases last
    obtain ⟨e, -, rfl⟩ := Session.onEngine_eq_ok_iff.1 undone
    exact infeasible
  | post p =>
    obtain ⟨⟨result, s'⟩, posted, last⟩ := bind_eq_ok_iff.1 ran
    rcases Posting.add_spec posted with ⟨-, rfl, rfl⟩ | ⟨feasible, -⟩
    · cases last
      exact infeasible
    · simp [infeasible] at feasible
  | say m =>
    cases ran
    exact infeasible
  | takeNotes =>
    obtain ⟨⟨notes, s'⟩, taken, last⟩ := bind_eq_ok_iff.1 ran
    cases last
    obtain ⟨e, -, rfl⟩ := Session.onEngine_eq_ok_iff.1 taken
    exact infeasible

/-- Posting a propagator installs it and propagates. -/
theorem Step.posted {x : Posted} {c c' : State} (h : Step (.post x) c c')
    (feasible : c.solver.isInfeasible = false) :
    c'.solver.isInfeasible = true ∨ c'.solver.isInfeasible = false ∧
      ∃ id e status, c.solver.engine.install x.blueprint = .ok (id, e) ∧
        e.propagate = .ok (status, c'.solver.engine) ∧ c'.last = Operation.outcome status := by
  obtain ⟨⟨result, s'⟩, posted, last⟩ := bind_eq_ok_iff.1 h.ran
  rcases Posting.add_spec posted with
    ⟨infeasible, -⟩ | ⟨-, id, e, status, e', installed, propagated, -, this⟩
  · simp [feasible] at infeasible
  · rcases this with ⟨rfl, rfl, rfl⟩ | ⟨⟨cause, rfl⟩, rfl, rfl | infeasible⟩
    · cases last
      exact .inr ⟨feasible, id, e, .ok (), installed, propagated, rfl⟩
    · cases last
      exact .inr ⟨feasible, id, e, .error cause, installed, propagated, rfl⟩
    · cases last
      exact .inl infeasible

theorem effect_of_step {op : Operation} {c c' : State} (h : Step op c c')
    (feasible : c.solver.isInfeasible = false) : Step.Effect op c c' := by
  have ran := h.ran
  have back (other : ∀ k, op ≠ .undoTo k) : c.last ≠ .failed := by
    intro failed
    rcases h.back failed with infeasible | ⟨k, eq⟩
    · simp [feasible] at infeasible
    · exact other k eq
  cases op with
  | newInteger lower upper =>
    obtain ⟨⟨x, s'⟩, made, last⟩ := bind_eq_ok_iff.1 ran
    cases last
    obtain ⟨le, -, rfl⟩ := Session.newInteger_spec made
    exact .quiet feasible (.newInteger ⟨le, h.valid.1, h.valid.2⟩) (by simp)
      fun failed => absurd failed (back (by simp))
  | newInterval bounds presence =>
    obtain ⟨⟨i, s'⟩, made, last⟩ := bind_eq_ok_iff.1 ran
    cases last
    obtain ⟨e, created, rfl⟩ := Session.onEngine_eq_ok_iff.1 made
    obtain ⟨row, consistent, -, rfl⟩ := Engine.newInterval_spec created
    exact .quiet feasible (.addInterval (Interval.wellFormed_of_ofBounds h.valid consistent))
      (by simp) fun failed => absurd failed (back (by simp))
  | decide d =>
    have start := back (by simp)
    obtain ⟨⟨status, s'⟩, imposed, last⟩ := bind_eq_ok_iff.1 ran
    cases last
    rcases Session.impose_spec imposed with ⟨infeasible, -⟩ |
      ⟨-, ⟨refused, silent, infeasible | ⟨feasible', -⟩⟩ |
        ⟨e, e', changed, wrote, propagated, -, infeasible | ⟨feasible', same⟩⟩⟩
    · simp [feasible] at infeasible
    · exact .infeasible infeasible
    · exact .quiet feasible' (.silent silent) (by simp [Operation.decided, refused])
        fun failed => absurd failed start
    · exact .infeasible infeasible
    · refine .propagated feasible' start ⟨feasible, changed⟩ propagated ?_ same
      unfold Operation.decided
      split
      · contradiction
      · simp [feasible]
  | propagate =>
    have start := back (by simp)
    obtain ⟨⟨status, s'⟩, requested, last⟩ := bind_eq_ok_iff.1 ran
    cases last
    rcases Session.propagate_spec requested with
      ⟨infeasible, -⟩ | ⟨-, e, propagated, -, rfl | infeasible⟩
    · simp [feasible] at infeasible
    · exact .propagated feasible start ⟨feasible, rfl⟩ propagated (by simp [feasible])
        (.inl rfl)
    · exact .infeasible infeasible
  | checkpoint =>
    cases ran
    exact .quiet feasible .checkpoint (by simp) fun failed => absurd failed (back (by simp))
  | undoTo k =>
    obtain ⟨⟨_, s'⟩, undone, last⟩ := bind_eq_ok_iff.1 ran
    cases last
    obtain ⟨e, returned, rfl⟩ := Session.onEngine_eq_ok_iff.1 undone
    obtain ⟨e, undone, last⟩ := bind_eq_ok_iff.1 returned
    cases last
    exact .quiet feasible (.undoTo undone) (by simp) fun _ => ⟨k, undone⟩
  | post p =>
    rcases h.posted feasible with infeasible | ⟨feasible', id, e, status, installed, propagated, last⟩
    · exact .infeasible infeasible
    · exact .propagated feasible' (back (by simp)) ⟨feasible, id, installed⟩ propagated last (.inl rfl)
  | say m =>
    cases ran
    exact .quiet feasible (.silent (c.solver.engine.silently_say m)) (by simp)
      fun failed => absurd failed (back (by simp))
  | takeNotes =>
    obtain ⟨⟨notes, s'⟩, taken, last⟩ := bind_eq_ok_iff.1 ran
    cases last
    obtain ⟨e, given, rfl⟩ := Session.onEngine_eq_ok_iff.1 taken
    cases given
    exact .quiet feasible (.silent c.solver.engine.silently_takeNotes) (by simp)
      fun failed => absurd failed (back (by simp))

end Scheduling
