import Mathlib
import Scheduling.Proofs.Reachability

/-!
# Evaluated runs

A run over a given list of operations can be evaluated: whether an operation may be performed is
decided, and performing it is a function. So is whether an assignment lies within the domains.

Results:
* `State.follow`: the state after a list of operations, if all of them may be performed.
* `runs_follow`, `reachable_reach`: it is the end of a run.
* `Posting.run_eq_of_answer?`: what a posting leaves.
* `Operation.calls_of_caller?`: the first call that an operation makes.
* `Session.run_eq_of_answer?`: what an operation on a solver leaves.
* `Engine.mem_callers`: all calls of a propagation.
-/

namespace Scheduling

instance (b : Bounds) : Decidable b.WithinHorizon :=
  decidable_of_iff
    ((-horizon ≤ b.startMin ∧ b.startMin ≤ horizon) ∧ (-horizon ≤ b.startMax ∧ b.startMax ≤ horizon) ∧
      (-horizon ≤ b.endMin ∧ b.endMin ≤ horizon) ∧ (-horizon ≤ b.endMax ∧ b.endMax ≤ horizon) ∧
      (0 ≤ b.lengthMin ∧ b.lengthMin ≤ 2 * horizon) ∧ 0 ≤ b.lengthMax ∧ b.lengthMax ≤ 2 * horizon)
    ⟨fun ⟨a, b, c, d, e, f⟩ => ⟨a, b, c, d, e, f⟩, fun ⟨a, b, c, d, e, f⟩ => ⟨a, b, c, d, e, f⟩⟩

instance (b : Bounds) (start length : Int) : Decidable (b.Admits start length) :=
  decidable_of_iff
    ((b.startMin ≤ start ∧ start ≤ b.startMax) ∧
      (b.endMin ≤ start + length ∧ start + length ≤ b.endMax) ∧
      b.lengthMin ≤ length ∧ length ≤ b.lengthMax)
    ⟨fun ⟨⟨a, b⟩, ⟨c, d⟩, e, f⟩ => ⟨a, b, c, d, e, f⟩,
      fun ⟨a, b, c, d, e, f⟩ => ⟨⟨a, b⟩, ⟨c, d⟩, e, f⟩⟩

instance (d : IntegerDomain) (value : Int) : Decidable (d.Admits value) :=
  inferInstanceAs (Decidable (_ ∧ _))

instance (v : Interval) (value : IntervalValue) : Decidable (v.Admits value) :=
  match value with
  | .absent => inferInstanceAs (Decidable (_ ≠ _))
  | .placed .. => inferInstanceAs (Decidable (_ ∧ _))

/-- The rows of two tables decide whether an assignment lies within the domains. -/
theorem Domains.admits_iff (d : Domains) (a : Assignment) :
    d.Admits a ↔ (∀ k : Fin d.integers.size, ∀ row ∈ d.integers.get? k, row.Admits (a.integer ⟨k⟩)) ∧
      ∀ k : Fin d.intervals.size, ∀ row ∈ d.intervals.get? k, row.Admits (a.interval ⟨k⟩) := by
  constructor
  · intro admits
    exact ⟨fun k row here => admits.integer ⟨k⟩ row (Domains.integer_eq_ok_iff.2 here),
      fun k row here => admits.interval ⟨k⟩ row (Domains.interval_eq_ok_iff.2 here)⟩
  · rintro ⟨integers, intervals⟩
    refine ⟨fun x row here => ?_, fun i row here => ?_⟩
    · have here := Domains.integer_eq_ok_iff.1 here
      exact integers ⟨x.index, Table.lt_size_of_get? here⟩ row here
    · have here := Domains.interval_eq_ok_iff.1 here
      exact intervals ⟨i.index, Table.lt_size_of_get? here⟩ row here

instance (d : Domains) (a : Assignment) : Decidable (d.Admits a) :=
  decidable_of_iff _ (d.admits_iff a).symm

instance (d : Domains) (activities : List Activity) : Decidable (d.Knows activities) :=
  inferInstanceAs (Decidable (∀ a ∈ activities, _ ∧ _))

instance (d : Domains) (p : Posted) : Decidable (p.Valid d) :=
  match p with
  | .machine intervals => inferInstanceAs (Decidable (∀ i ∈ intervals, i.index < d.intervals.size))
  | .resource .. => inferInstanceAs (Decidable (_ ∧ _ ∧ _))
  | .synchronisation _ | .precedence _ | .checker _ | .script .. => isTrue trivial

instance (s : Solver Rule) (op : Operation) : Decidable (op.Valid s) :=
  match op with
  | .newInteger .. => inferInstanceAs (Decidable (_ ∧ _))
  | .newInterval bounds _ => inferInstanceAs (Decidable bounds.WithinHorizon)
  | .post p => inferInstanceAs (Decidable (p.Valid s.domains))
  | .decide _ | .propagate | .checkpoint | .undoTo _ | .say _ | .takeNotes => isTrue trivial

namespace State

/-- The operation may follow: after a propagation that failed below a checkpoint only a return. -/
def permits (c : State) (op : Operation) : Bool :=
  c.last ≠ .failed || c.solver.isInfeasible || op matches .undoTo _

/-- The state after an operation that may be performed and does not fault. -/
def next? (c : State) (op : Operation) : Option State :=
  if op.Valid c.solver ∧ c.permits op then (op.run c.solver).toOption else none

/-- The state after operations that may be performed and do not fault. -/
def trace (c : State) (ops : List Operation) : Option State := ops.foldlM next? c

end State

theorem step_of_next? {c c' : State} {op : Operation} (h : c.next? op = some c') : Step op c c' := by
  unfold State.next? at h
  split at h
  · rename_i may
    refine ⟨may.1, fun failed => ?_, ?_⟩
    · have permits := may.2
      simp only [State.permits, failed, ne_eq, not_true_eq_false, decide_false, Bool.false_or,
        Bool.or_eq_true] at permits
      rcases permits with infeasible | returns
      · exact .inl infeasible
      · cases op <;> first | exact .inr ⟨_, rfl⟩ | cases returns
    · cases ran : op.run c.solver with
      | ok _ =>
        rw [ran] at h
        cases h
        rfl
      | error _ =>
        rw [ran] at h
        cases h
  · cases h

theorem runs_of_trace {c c' : State} {ops : List Operation} (h : c.trace ops = some c') :
    Runs c c' := by
  induction ops generalizing c with
  | nil =>
    cases h
    exact .refl
  | cons op ops ih =>
    rw [State.trace, List.foldlM_cons] at h
    obtain ⟨c₁, first, rest⟩ := Option.bind_eq_some_iff.1 h
    exact (Steps.next .refl (step_of_next? first) fun _ _ _ => trivial).trans (ih rest)

/-- The state after operations, or the state itself if they may not be performed. -/
def State.follow (c : State) (ops : List Operation) : State := (c.trace ops).getD c

theorem runs_follow (c : State) (ops : List Operation) : Runs c (c.follow ops) := by
  unfold State.follow
  cases h : c.trace ops with
  | none => exact .refl
  | some c' => exact runs_of_trace h

/-- A single operation that may be performed and does not fault is a step. -/
theorem step_follow {c : State} {op : Operation} (h : (c.next? op).isSome = true) :
    Step op c (c.follow [op]) := by
  obtain ⟨c', next⟩ := Option.isSome_iff_exists.1 h
  have same : c.follow [op] = c' := by simp [State.follow, State.trace, next]
  rw [same]
  exact step_of_next? next

/-- The state that a run over the given operations reaches. -/
def State.reach (ops : List Operation) : State := State.follow ⟨.empty, .done⟩ ops

theorem reachable_reach (ops : List Operation) : Reachable (State.reach ops) := runs_follow _ ops

/-! ## Sessions and postings -/

namespace Session

variable {P α : Type}

/-- The solver that an operation leaves. -/
def after (x : Session P α) (s : Solver P) : Solver P :=
  match x.run s with
  | .ok (_, s') => s'
  | .error _ => s

/-- The answer of an operation that does not fault. -/
def answer? (x : Session P α) (s : Solver P) : Option α :=
  match x.run s with
  | .ok (a, _) => some a
  | .error _ => none

theorem run_eq_of_answer? {x : Session P α} {s : Solver P} {a : α} (h : x.answer? s = some a) :
    x.run s = .ok (a, x.after s) := by
  unfold answer? at h
  unfold after
  split at h
  · rename_i ran
    cases h
    rw [ran]
  · cases h

end Session

namespace Posting

variable {α : Type}

/-- The solver that a posting leaves. -/
def after (x : Posting Rule α) (s : Solver Rule) : Solver Rule :=
  match x.run.run s with
  | .ok (_, s') => s'
  | .error _ => s

/-- The answer of a posting that is not refused. -/
def answer? (x : Posting Rule α) (s : Solver Rule) : Option α :=
  match x.run.run s with
  | .ok (.ok a, _) => some a
  | _ => none

theorem run_eq_of_answer? {x : Posting Rule α} {s : Solver Rule} {a : α}
    (h : x.answer? s = some a) : x.run.run s = .ok (.ok a, x.after s) := by
  unfold answer? at h
  unfold after
  split at h
  · rename_i ran
    cases h
    rw [ran]
  · cases h

theorem run_eq_of_map {x : Posting Rule α} {s : Solver Rule} {result : Except PostError α}
    (h : (x.run.run s).map Prod.fst = .ok result) : x.run.run s = .ok (result, x.after s) := by
  unfold after
  cases ran : x.run.run s with
  | error fault => simp [ran, Except.map] at h
  | ok r =>
    rw [ran] at h
    cases h
    rfl

end Posting

/-! ## Calls -/

/-- The propagator that propagation calls first. -/
def Engine.caller? (e : Engine Rule) : Option (PropagatorId × Engine Rule) := do
  let notified ← e.notify.toOption
  let (some p, agenda) := notified.agenda.pop | none
  let f : Engine Rule := { notified with agenda }
  let active ← (f.isActive p).toOption
  if active then some (p, f) else none

theorem Engine.calls_of_caller? {e f : Engine Rule} {p : PropagatorId}
    (h : e.caller? = some (p, f)) : e.Calls p f := by
  obtain ⟨notified, first, h⟩ := Option.bind_eq_some_iff.1 h
  split at h
  swap
  · cases h
  rename_i agenda popped
  obtain ⟨active, known, answer⟩ := Option.bind_eq_some_iff.1 h
  cases active with
  | false => cases answer
  | true =>
  cases answer
  obtain ⟨rounds, eq⟩ : ∃ n, e.rounds = n + 1 :=
    Nat.exists_eq_succ_of_ne_zero (Nat.mul_ne_zero (Nat.succ_ne_zero _) (Nat.succ_ne_zero _))
  have ok {α : Type} {x : Except Fault α} {a : α} (h : x.toOption = some a) : x = .ok a := by
    cases x <;> cases h
    rfl
  rw [Engine.Calls, eq]
  exact ⟨notified, p, agenda, ok first, popped, .inl ⟨rfl, rfl, ok known⟩⟩

/-- All calls within a number of rounds, each with the engine on which it is made. -/
def Engine.callers {P : Type} [Propagator P] : Nat → Engine P → List (PropagatorId × Engine P)
  | 0, _ => []
  | rounds + 1, e =>
    match e.notify with
    | .error _ => []
    | .ok notified =>
      match notified.agenda.pop with
      | (none, _) => []
      | (some p, agenda) =>
        let f : Engine P := { notified with agenda }
        let later := match f.visit p with
          | .ok (.ok (), e') => callers rounds e'
          | _ => []
        if f.isActive p matches .ok true then (p, f) :: later else later

theorem Engine.mem_callers {P : Type} [Propagator P] {rounds : Nat} {e f : Engine P}
    {p : PropagatorId} (h : e.CallsWithin rounds p f) : (p, f) ∈ e.callers rounds := by
  induction rounds generalizing e with
  | zero => exact h.elim
  | succ rounds ih =>
    obtain ⟨notified, q, agenda, first, popped, this⟩ := h
    simp only [callers, first, popped]
    rcases this with ⟨rfl, rfl, active⟩ | ⟨e', visited, later⟩
    · simp [active]
    · simp only [visited]
      split
      · exact List.mem_cons_of_mem _ (ih later)
      · exact ih later

namespace Operation

/-- The engine from which an operation starts to propagate. -/
def entry? (op : Operation) (s : Solver Rule) : Option (Engine Rule) :=
  if s.isInfeasible then none
  else match op with
    | propagate => some s.engine
    | decide d =>
      match s.engine.change d.write with
      | .ok (.ok (), e) => some e
      | _ => none
    | post p =>
      match s.engine.install p.blueprint with
      | .ok (_, e) => some e
      | .error _ => none
    | _ => none

theorem enters_of_entry? {op : Operation} {s : Solver Rule} {e : Engine Rule}
    (h : op.entry? s = some e) : op.Enters s e := by
  unfold entry? at h
  split at h
  · cases h
  rename_i feasible
  have feasible : s.isInfeasible = false := by simpa using feasible
  cases op with
  | propagate =>
    cases h
    exact ⟨feasible, rfl⟩
  | decide d =>
    simp only at h
    split at h
    · rename_i changed
      cases h
      exact ⟨feasible, changed⟩
    · cases h
  | post p =>
    simp only at h
    split at h
    · rename_i id e' installed
      cases h
      exact ⟨feasible, id, installed⟩
    · cases h
  | _ => cases h

/-- The propagator that an operation calls first, and the engine on which it does so. -/
def caller? (op : Operation) (s : Solver Rule) : Option (PropagatorId × Engine Rule) :=
  (op.entry? s).bind Engine.caller?

/-- The engine on which an operation calls a propagator first. -/
def called (op : Operation) (s : Solver Rule) : Engine Rule :=
  ((op.caller? s).map Prod.snd).getD s.engine

theorem calls_of_caller? {op : Operation} {s : Solver Rule} {p : PropagatorId}
    (h : (op.caller? s).map Prod.fst = some p) : op.Calls s p (op.called s) := by
  unfold called
  obtain ⟨⟨q, f⟩, found, rfl⟩ := Option.map_eq_some_iff.1 h
  rw [found]
  obtain ⟨e, entered, first⟩ := Option.bind_eq_some_iff.1 found
  exact ⟨e, enters_of_entry? entered, Engine.calls_of_caller? first⟩

/-- Up to where propagation starts the domains only narrow. -/
theorem Enters.narrows {op : Operation} {s : Solver Rule} {e : Engine Rule} (h : op.Enters s e)
    (sane : s.engine.Sane) : s.domains.Narrows e.domains := by
  cases op with
  | decide d => exact (Engine.evolves_of_change sane d.writes h.2).domains.narrows
  | propagate => exact h.2 ▸ .refl _
  | post x =>
    obtain ⟨-, id, installed⟩ := h
    rw [(Engine.installed_of_install installed).domains]
    exact .refl _
  | _ => exact h.elim

/-- Up to a call they do, too. -/
theorem Calls.narrows {op : Operation} {s : Solver Rule} {p : PropagatorId} {f : Engine Rule}
    (h : op.Calls s p f) (sane : s.engine.Sane) : s.domains.Narrows f.domains := by
  obtain ⟨e, enters, calls⟩ := h
  exact (Enters.narrows enters sane).trans
    (Engine.sane_of_callsWithin (enters.sane sane) calls).2.narrows

end Operation

end Scheduling
