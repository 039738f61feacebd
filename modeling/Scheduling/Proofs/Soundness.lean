import Scheduling.Proofs.Solutions
import Scheduling.Proofs.Trace

/-!
# Soundness for any sound propagators

A solver works with propagators of any kind. If every call of a propagator keeps the assignments in
the relation that the propagator stands for, no assignment is lost that is within the domains of all
variables, in the relations of all propagators, and compatible with the decisions in force.

Results:
* `Propagator.Contextual`: propagators work on the store through their context only.
* `Decision.exists_write`: a decision that an assignment satisfies leaves a value and keeps it.
* `Engine.sound_of_loop`: propagation keeps the assignments that all calls keep.
* `Record`, `Chronicle`: the runs of a solver, with the decisions in force at each operation.
* `Chronicle.keeps_solution`: soundness.
-/

namespace Scheduling

/-- Propagators work on the store through their context only. The lemmas
`Propagation.performs_bind`, `Propagation.performs_change` and the like show this of all computations
that are made of the steps that a context offers. -/
class Propagator.Contextual (P : Type) [Propagator P] : Prop where
  evolves : ∀ {context : Context} {q q' : P} {status : Status} {s s' : Store},
    s.domains.WellFormed → (Propagator.run context q).run s = .ok ((q', status), s') →
    ∃ own, s.Evolves own s'

instance : Propagator.Contextual Rule :=
  ⟨fun wellFormed ran => ⟨_, (Rule.evolves_of_run wellFormed ran).2⟩⟩

/-! ## Decisions -/

/-- The assignment is on the side that the decision keeps. -/
def Decision.Keeps (a : Assignment) : Decision → Prop
  | setBound v side value => side.Keeps value (a.value v)
  | assign l value => if value then 1 ≤ a.value (.literal l) else a.value (.literal l) ≤ 0
  | update i u => u.Keeps (a.interval i)

namespace Domains

variable {d : Domains} {a : Assignment}

/-- Admission depends on the rows alone. -/
theorem admits_rows_iff : d.rows.Admits a ↔ d.Admits a :=
  ⟨fun h => ⟨h.integer, h.interval⟩, fun h => ⟨h.integer, h.interval⟩⟩

/-- A new variable with its value is admitted at all checkpoints. -/
theorem admits_past_addInteger {row : IntegerDomain} {k : Nat} (recorded : d.Recorded)
    (h : (d.past k).Admits a) (new : row.Admits (a.integer d.nextInteger)) :
    ((d.addInteger row).past k).Admits a := by
  rw [past_addInteger recorded]
  refine ⟨fun x domain found => ?_, h.interval⟩
  rw [integer_eq_ok_iff, addInteger, Table.get?_push, (size_past d k).1] at found
  split at found
  · rename_i last
    cases found
    obtain rfl : x = d.nextInteger := by cases x; simp_all [nextInteger]
    exact new
  · exact h.integer x domain (integer_eq_ok_iff.2 found)

theorem admits_past_addInterval {row : Interval} {k : Nat} (recorded : d.Recorded)
    (h : (d.past k).Admits a) (new : row.Admits (a.interval d.nextInterval)) :
    ((d.addInterval row).past k).Admits a := by
  rw [past_addInterval recorded]
  refine ⟨h.integer, fun i domain found => ?_⟩
  rw [interval_eq_ok_iff, addInterval, Table.get?_push, (size_past d k).2] at found
  split at found
  · rename_i last
    cases found
    obtain rfl : i = d.nextInterval := by cases i; simp_all [nextInterval]
    exact new
  · exact h.interval i domain (interval_eq_ok_iff.2 found)

/-- Moving a bound of a variable that keeps its value does not fail. -/
theorem admits_of_setBound {v : Variable} {side : Side} {value : Int} {left : Option Domains}
    (wellFormed : d.WellFormed) (admits : d.Admits a) (keeps : side.Keeps value (a.value v))
    (h : v.setBound side value d = .ok left) : ∃ d', left = some d' ∧ d'.Admits a := by
  rw [Variable.setBound_eq] at h
  obtain ⟨bound, mapped, tightened⟩ := bind_eq_ok_iff.1 h
  obtain ⟨row, here, -⟩ := bind_eq_ok_iff.1 tightened
  obtain ⟨d', tightened', admits'⟩ := exists_tighten (wellFormed.integer _ row here) here admits
    ((Variable.keeps_iff_of_invert mapped _).2 keeps)
  rw [tightened] at tightened'
  cases tightened'
  exact ⟨d', rfl, admits'⟩

end Domains

/-- A decision that the assignment satisfies leaves a value, and keeps the assignment. -/
theorem Decision.exists_write {d : Decision} {domains : Domains} {a : Assignment}
    {left : Option Domains} (wellFormed : domains.WellFormed) (admits : domains.Admits a)
    (keeps : d.Keeps a) (h : d.write domains = .ok left) :
    ∃ domains', left = some domains' ∧ domains'.Admits a := by
  cases d with
  | setBound v side value => exact Domains.admits_of_setBound wellFormed admits keeps h
  | assign l value =>
    cases value with
    | true =>
      have keeps : Side.lower.Keeps 1 (a.value (.literal l)) := keeps
      exact Domains.admits_of_setBound wellFormed admits keeps h
    | false =>
      have keeps : Side.upper.Keeps 0 (a.value (.literal l)) := keeps
      exact Domains.admits_of_setBound wellFormed admits keeps h
  | update i u =>
    obtain ⟨row, here, -⟩ := bind_eq_ok_iff.1 h
    obtain ⟨domains', updated, admits'⟩ := Domains.exists_update wellFormed here admits keeps
    have h : domains.update i u = .ok left := h
    rw [updated] at h
    cases h
    exact ⟨domains', rfl, admits'⟩

/-! ## Propagation -/

namespace Engine

variable {P : Type} {e e' : Engine P} {a : Assignment}

/-- The store is sane, and neither the checkpoint nor the rows of earlier ones have changed. -/
structure Follows (e e' : Engine P) : Prop where
  sane : e'.store.Sane
  depth : e'.depth = e.depth
  past : ∀ k, k < e.depth → e'.domains.past k = e.domains.past k

theorem Follows.refl (sane : e.store.Sane) : e.Follows e := ⟨sane, rfl, fun _ _ => rfl⟩

theorem Follows.trans {e'' : Engine P} (h : e.Follows e') (h' : e'.Follows e'') :
    e.Follows e'' := by
  refine ⟨h'.sane, h'.depth.trans h.depth, fun k below => ?_⟩
  rw [h'.past k (by rw [h.depth]; exact below), h.past k below]

theorem follows_of_evolves {own : List CellId} (sane : e.store.Sane)
    (evolves : e.store.Evolves own e'.store) : e.Follows e' :=
  ⟨sane.evolves evolves, evolves.domains.depth, evolves.domains.past⟩

/-- Who waits, which events are pending and what was noted does not matter. -/
theorem follows_of_rows {events : List (Watched × Event)} {notes : List Note} {agenda : Agenda}
    (sane : e.store.Sane) :
    e.Follows { e with
      store := { e.store with domains := { e.domains with events }, notes }, agenda } :=
  ⟨⟨sane.depth, sane.recordedRows, sane.recordedCells, sane.wellFormed, sane.narrows⟩, rfl,
    fun _ _ => rfl⟩

variable [Propagator P]

/-- The call of `p` does not fail and keeps the assignment, if that is one of the domains. -/
def Spares (e : Engine P) (p : PropagatorId) (a : Assignment) : Prop :=
  e.domains.WellFormed → e.domains.Admits a → ∀ status e', e.call p = .ok (status, e') →
    status = .ok () ∧ e'.domains.Admits a

/-- All calls during the propagation keep the assignments in the relations of the propagators. -/
def Trusts (e : Engine P) (R : PropagatorId → Assignment → Prop) : Prop :=
  ∀ p f, e.Calls p f → ∀ a, R p a → f.Spares p a

variable [Propagator.Contextual P]

theorem follows_of_call {p : PropagatorId} {status : Status} (sane : e.store.Sane)
    (called : e.call p = .ok (status, e')) :
    e.Follows e' ∧ e'.propagators.size = e.propagators.size ∧ p.index < e.propagators.size := by
  obtain ⟨activity, q, q', s', here, row, ran, rfl⟩ := call_spec called
  obtain ⟨own, evolves⟩ := Propagator.Contextual.evolves sane.wellFormed_now ran
  exact ⟨follows_of_evolves sane evolves, by simp, Table.lt_size_of_get? row⟩

/-- A visit keeps the assignments that the call keeps. -/
theorem sound_of_visit {p : PropagatorId} {status : Status} (sane : e.store.Sane)
    (visited : e.visit p = .ok (status, e')) :
    e.Follows e' ∧ e'.propagators.size = e.propagators.size ∧
      ∀ a, (p.index < e.propagators.size → e.isActive p = .ok true → e.Spares p a) →
        e.domains.Admits a → status = .ok () ∧ e'.domains.Admits a := by
  rcases visit_spec visited with ⟨-, rfl, rfl⟩ | ⟨active, e₁, called, done, failed⟩
  · exact ⟨.refl sane, rfl, fun _ _ admits => ⟨rfl, admits⟩⟩
  · obtain ⟨follows, size, inside⟩ := follows_of_call sane called
    cases status with
    | ok =>
      rw [done rfl]
      exact ⟨follows, size, fun _ spares admits =>
        spares inside active sane.wellFormed_now admits _ _ called⟩
    | error cause =>
      obtain ⟨m, rfl⟩ := failed ⟨cause, rfl⟩
      refine ⟨follows.trans (follows_of_rows follows.sane), size, fun _ spares admits => ?_⟩
      obtain ⟨ok, -⟩ := spares inside active sane.wellFormed_now admits _ _ called
      cases ok

/-- Propagation keeps the assignments that all calls keep, and does not fail if there is one. -/
theorem sound_of_loop {R : PropagatorId → Assignment → Prop} {rounds : Nat} {status : Status}
    (sane : e.store.Sane) (ran : e.loop rounds = .ok (status, e')) :
    e.Follows e' ∧ e'.propagators.size = e.propagators.size ∧
      ((∀ p f, e.CallsWithin rounds p f → ∀ a, R p a → f.Spares p a) → ∀ a,
        (∀ p : PropagatorId, p.index < e.propagators.size → R p a) → e.domains.Admits a →
          status = .ok () ∧ e'.domains.Admits a) := by
  induction rounds generalizing e with
  | zero => cases ran
  | succ rounds ih =>
    obtain ⟨e₁, notified, ran⟩ := bind_eq_ok_iff.1 ran
    obtain ⟨queued, rfl, -⟩ := notify_spec notified
    cases popped : queued.pop with
    | mk taken agenda =>
      rw [popped] at ran
      have start : e.Follows { e.dropEvents with agenda } := follows_of_rows sane
      cases taken with
      | none =>
        cases ran
        exact ⟨start, rfl, fun _ a _ admits => ⟨rfl, ⟨admits.integer, admits.interval⟩⟩⟩
      | some p =>
        obtain ⟨⟨status', e₂⟩, visited, ran⟩ := bind_eq_ok_iff.1 ran
        obtain ⟨follows, size, keeps⟩ := sound_of_visit start.sane visited
        have size : e₂.propagators.size = e.propagators.size := size
        have spares (trusts : ∀ p f, e.CallsWithin (rounds + 1) p f → ∀ a, R p a → f.Spares p a)
            (a : Assignment) (related : ∀ p : PropagatorId, p.index < e.propagators.size → R p a)
            (admits : e.domains.Admits a) : status' = .ok () ∧ e₂.domains.Admits a :=
          keeps a (fun inside active => trusts p _
            ⟨_, p, agenda, notified, popped, .inl ⟨rfl, rfl, active⟩⟩ a (related p inside))
            ⟨admits.integer, admits.interval⟩
        cases status' with
        | ok =>
          obtain ⟨follows', size', keeps'⟩ := ih follows.sane ran
          refine ⟨start.trans (follows.trans follows'), size'.trans size,
            fun trusts a related admits => ?_⟩
          refine keeps' (fun p' f calls => trusts p' f
              ⟨_, p, agenda, notified, popped, .inr ⟨e₂, visited, calls⟩⟩)
            a (fun p' inside => related p' (by rw [← size]; exact inside))
            (spares trusts a related admits).2
        | error cause =>
          cases ran
          refine ⟨start.trans follows, size, fun trusts a related admits => ?_⟩
          have ok := (spares trusts a related admits).1
          cases ok

end Engine

section

variable {P : Type}

theorem Engine.follows_closed {e : Engine P} (sane : e.store.Sane) (status : Status) :
    e.Follows (e.closed status) := by
  cases status with
  | ok => exact .refl sane
  | error cause => exact Engine.follows_of_rows sane

theorem Solver.follows_ended (s : Solver P) (status : Status) (sane : s.engine.store.Sane) :
    s.engine.Follows (s.ended status).engine := by
  cases status with
  | ok => exact .refl sane
  | error cause =>
    simp only [ended, markInfeasible]
    split
    · exact Engine.follows_of_rows sane
    · exact .refl sane

theorem Solver.propagators_ended (s : Solver P) (status : Status) :
    (s.ended status).engine.propagators = s.engine.propagators := by
  cases status with
  | ok => rfl
  | error cause =>
    simp only [ended, markInfeasible]
    split <;> rfl

/-- An operation that propagates, or is refused because the problem is known to be infeasible. It
keeps the assignments in the relations of all propagators that the operation itself allows, and is
answered positively if there is one. -/
inductive Solver.Propagates (R : PropagatorId → Assignment → Prop) (allows : Assignment → Prop)
    (positive : Prop) (s : Solver P) : Solver P → Prop
  | refused (known : s.isInfeasible = true) : Propagates R allows positive s s
  | ended {e : Engine P} {status : Status} (follows : s.engine.Follows e)
    (size : s.engine.propagators.size ≤ e.propagators.size) (answer : status = .ok () → positive)
    (keeps : ∀ a, (∀ p : PropagatorId, p.index < e.propagators.size → R p a) → allows a →
      s.domains.Admits a → status = .ok () ∧ e.domains.Admits a) :
    Propagates R allows positive s ((s.withEngine e).ended status)

namespace Solver.Propagates

variable {R : PropagatorId → Assignment → Prop} {allows : Assignment → Prop} {positive : Prop}
  {s s' : Solver P} {a : Assignment}

theorem follows (h : s.Propagates R allows positive s') (sane : s.engine.store.Sane) :
    s.engine.Follows s'.engine := by
  cases h with
  | refused _ => exact .refl sane
  | ended follows => exact follows.trans (Solver.follows_ended (s.withEngine _) _ follows.sane)

theorem size_le (h : s.Propagates R allows positive s') :
    s.engine.propagators.size ≤ s'.engine.propagators.size := by
  cases h with
  | refused _ => exact Nat.le_refl _
  | @ended e status _ size => rwa [Solver.propagators_ended]

/-- An operation below a checkpoint does not make the problem infeasible. -/
theorem feasible (h : s.Propagates R allows positive s') (feasible : s.isInfeasible = false)
    (below : s.engine.depth ≠ 0) : s'.isInfeasible = false := by
  cases h with
  | refused _ => exact feasible
  | @ended e status follows =>
    have depth : (s.withEngine e).engine.depth = s.engine.depth := follows.depth
    cases status with
    | ok => exact feasible
    | error cause =>
      simp only [Solver.ended, Solver.markInfeasible, depth, below, if_false]
      exact feasible

/-- What becomes of an assignment that is in all relations and that the operation allows. -/
theorem kept (h : s.Propagates R allows positive s') (feasible : s.isInfeasible = false)
    (related : ∀ p : PropagatorId, p.index < s'.engine.propagators.size → R p a)
    (allowed : allows a) (admits : s.domains.Admits a) :
    s'.domains.Admits a ∧ s'.isInfeasible = false ∧ positive := by
  cases h with
  | refused known => simp [known] at feasible
  | @ended e status follows size answer keeps =>
    rw [Solver.propagators_ended] at related
    obtain ⟨rfl, admits'⟩ := keeps a related allowed admits
    exact ⟨admits', feasible, answer rfl⟩

end Solver.Propagates

end

/-! ## Runs -/

/-- A decision with the checkpoint at which it was made. -/
structure Made where
  depth : Nat
  decision : Decision

/-- How a decision, a propagation or the posting of a propagator ended. -/
inductive Answer
  | ended (status : Status)
  | posted (result : Except PostError PropagatorId)

/-- It ended without an error. -/
def Answer.IsPositive : Answer → Prop
  | ended status => status = .ok ()
  | posted result => ∃ p, result = .ok p

/-- What a run has come to: the solver, the domains with which the variables were created, the
decisions in force, and for every operation that propagated the decisions that were in force then
and how it ended. -/
structure Record (P : Type) where
  solver : Solver P
  integers : List (IntegerId × IntegerDomain)
  intervals : List (IntervalId × Interval)
  inForce : List Made
  log : List (List Made × Answer)

namespace Record

variable {P : Type}

/-- The start of a run. -/
def blank : Record P := ⟨.empty, [], [], [], []⟩

/-- After a decision, which is in force from then on, also if it failed. -/
def decided (r : Record P) (d : Decision) (status : Status) (solver : Solver P) : Record P :=
  let inForce := ⟨r.solver.engine.depth, d⟩ :: r.inForce
  { r with solver, inForce, log := (inForce, .ended status) :: r.log }

/-- After an operation that propagated without a decision. -/
def answered (r : Record P) (answer : Answer) (solver : Solver P) : Record P :=
  { r with solver, log := (r.inForce, answer) :: r.log }

/-- After a return, with which the decisions of later checkpoints are undone. -/
def returned (r : Record P) (checkpoint : Nat) (solver : Solver P) : Record P :=
  { r with solver, inForce := r.inForce.filter (·.depth ≤ checkpoint) }

end Record

/-- Runs of a solver in which every call of a propagator `p` keeps the assignments in `R p`. -/
inductive Chronicle {P : Type} [Propagator P] (R : PropagatorId → Assignment → Prop) :
    Record P → Prop
  | blank : Chronicle R .blank
  | newInteger {r : Record P} {lower upper : Int} {x : IntegerId} {s : Solver P}
    (before : Chronicle R r) (words : Width.w32.Holds lower ∧ Width.w32.Holds upper)
    (ran : (Session.newInteger lower upper).run r.solver = .ok (x, s)) :
    Chronicle R { r with solver := s, integers := (x, ⟨lower, upper⟩) :: r.integers }
  | newInterval {r : Record P} {bounds : Bounds} {presence : Presence} {row : Interval}
    {i : IntervalId} {s : Solver P} (before : Chronicle R r) (within : bounds.WithinHorizon)
    (consistent : Interval.ofBounds bounds presence = .ok row)
    (ran : (Session.onEngine (·.newInterval bounds presence)).run r.solver = .ok (i, s)) :
    Chronicle R { r with solver := s, intervals := (i, row) :: r.intervals }
  | decide {r : Record P} {d : Decision} {status : Status} {s : Solver P} (before : Chronicle R r)
    (sound : ∀ e, r.solver.engine.change d.write = .ok (.ok (), e) → e.Trusts R)
    (ran : (Session.impose d.write).run r.solver = .ok (status, s)) :
    Chronicle R (r.decided d status s)
  | propagate {r : Record P} {status : Status} {s : Solver P} (before : Chronicle R r)
    (sound : r.solver.engine.Trusts R)
    (ran : Session.propagate.run r.solver = .ok (status, s)) :
    Chronicle R (r.answered (.ended status) s)
  | checkpoint {r : Record P} {s : Solver P} (before : Chronicle R r)
    (ran : Session.checkpoint.run r.solver = .ok ((), s)) : Chronicle R { r with solver := s }
  | undoTo {r : Record P} {k : Nat} {s : Solver P} (before : Chronicle R r)
    (ran : (Session.undoTo k).run r.solver = .ok ((), s)) : Chronicle R (r.returned k s)
  | add {r : Record P} {b : Blueprint P} {result : Except PostError PropagatorId} {s : Solver P}
    (before : Chronicle R r)
    (sound : ∀ p e, r.solver.engine.install b = .ok (p, e) → e.Trusts R)
    (ran : (Posting.add b).run.run r.solver = .ok (result, s)) :
    Chronicle R (r.answered (.posted result) s)

namespace Record

variable {P : Type} {a : Assignment}

/-- The values of the assignment are of the domains with which the variables were created, and it is
in the relations of all propagators. -/
structure Poses (r : Record P) (R : PropagatorId → Assignment → Prop) (a : Assignment) : Prop where
  integers : ∀ created ∈ r.integers, created.2.Admits (a.integer created.1)
  intervals : ∀ created ∈ r.intervals, created.2.Admits (a.interval created.1)
  related : ∀ p : PropagatorId, p.index < r.solver.engine.propagators.size → R p a

/-- What every run keeps: the store is sane, and decisions were made at checkpoints that are still
open. -/
structure Sane (r : Record P) : Prop where
  store : r.solver.engine.store.Sane
  depth : ∀ m ∈ r.inForce, m.depth ≤ r.solver.engine.depth

/-- What a run keeps about an assignment: the rows of a checkpoint admit it if the decisions up to
that checkpoint do, and with those before the first checkpoint the problem is feasible. -/
structure Respects (r : Record P) (a : Assignment) : Prop where
  past : ∀ k, (∀ m ∈ r.inForce, m.depth ≤ k → m.decision.Keeps a) →
    (r.solver.domains.past k).Admits a
  feasible : (∀ m ∈ r.inForce, m.depth = 0 → m.decision.Keeps a) → r.solver.isInfeasible = false
  log : ∀ entry ∈ r.log, (∀ m ∈ entry.1, m.decision.Keeps a) → entry.2.IsPositive

theorem Respects.admits {r : Record P} (h : r.Respects a)
    (keeps : ∀ m ∈ r.inForce, m.decision.Keeps a) : r.solver.domains.Admits a := by
  have now := h.past r.solver.domains.depth fun m mem _ => keeps m mem
  rw [Domains.past_depth] at now
  exact Domains.admits_rows_iff.1 now

/-- An operation that propagates, or is refused: a decision that it makes is in force from then on,
and its answer is put down together with the decisions in force. -/
structure Answers (r r' : Record P) (answer : Answer) : Prop where
  older : ∀ m ∈ r.inForce, m ∈ r'.inForce
  newer : ∀ m ∈ r'.inForce, m ∈ r.inForce ∨ m.depth = r.solver.engine.depth
  log : r'.log = (r'.inForce, answer) :: r.log

theorem answers_decided (r : Record P) (d : Decision) (status : Status) (s : Solver P) :
    r.Answers (r.decided d status s) (.ended status) := by
  refine ⟨fun m mem => List.mem_cons_of_mem _ mem, fun m mem => ?_, rfl⟩
  rcases List.mem_cons.1 mem with rfl | mem
  · exact .inr rfl
  · exact .inl mem

theorem answers_answered (r : Record P) (answer : Answer) (s : Solver P) :
    r.Answers (r.answered answer s) answer :=
  ⟨fun _ mem => mem, fun _ mem => .inl mem, rfl⟩

namespace Answers

variable {r r' : Record P} {answer : Answer} {R : PropagatorId → Assignment → Prop}
  {allows : Assignment → Prop}

theorem sane (h : r.Answers r' answer) (before : r.Sane)
    (step : r.solver.Propagates R allows answer.IsPositive r'.solver) : r'.Sane := by
  have follows := step.follows before.store
  refine ⟨follows.sane, fun m mem => ?_⟩
  rw [follows.depth]
  rcases h.newer m mem with mem | here
  · exact before.depth m mem
  · exact Nat.le_of_eq here

theorem respects (h : r.Answers r' answer) (sane : r.Sane) (respects : r.Respects a)
    (step : r.solver.Propagates R allows answer.IsPositive r'.solver)
    (related : ∀ p : PropagatorId, p.index < r'.solver.engine.propagators.size → R p a)
    (allowed : (∀ m ∈ r'.inForce, m.decision.Keeps a) → allows a) : r'.Respects a := by
  have moved := step.follows sane.store
  have made (m : Made) (mem : m ∈ r'.inForce) : m.depth ≤ r.solver.engine.depth :=
    (h.newer m mem).elim (sane.depth m) Nat.le_of_eq
  have before (keeps : ∀ m ∈ r'.inForce, m.depth = 0 → m.decision.Keeps a) :=
    respects.feasible fun m mem => keeps m (h.older m mem)
  have kept (keeps : ∀ m ∈ r'.inForce, m.decision.Keeps a) : r'.solver.domains.Admits a ∧
      r'.solver.isInfeasible = false ∧ answer.IsPositive :=
    step.kept (before fun m mem _ => keeps m mem) related (allowed keeps)
      (respects.admits fun m mem => keeps m (h.older m mem))
  refine ⟨fun k keeps => ?_, fun keeps => ?_, fun entry mem keeps => ?_⟩
  · by_cases earlier : k < r.solver.engine.depth
    · have same : r'.solver.domains.past k = r.solver.domains.past k := moved.past k earlier
      rw [same]
      exact respects.past k fun m mem => keeps m (h.older m mem)
    · have later : r.solver.engine.depth ≤ k := Nat.le_of_not_lt earlier
      have depth : r'.solver.domains.depth ≤ k := Nat.le_trans (Nat.le_of_eq moved.depth) later
      rw [Domains.past_of_depth_le depth]
      exact Domains.admits_rows_iff.2
        (kept fun m mem => keeps m mem (Nat.le_trans (made m mem) later)).1
  · by_cases root : r.solver.engine.depth = 0
    · exact (kept fun m mem => keeps m mem (by have := made m mem; omega)).2.1
    · exact step.feasible (before keeps) root
  · rw [h.log] at mem
    rcases List.mem_cons.1 mem with rfl | mem
    · exact (kept keeps).2.2
    · exact respects.log entry mem keeps

end Answers

end Record

namespace Chronicle

variable {P : Type} [Propagator P] [Propagator.Contextual P]
  {R : PropagatorId → Assignment → Prop} {r : Record P}

theorem propagates_impose {s s' : Solver P} {d : Decision} {status : Status}
    (sane : s.engine.store.Sane)
    (sound : ∀ e, s.engine.change d.write = .ok (.ok (), e) → e.Trusts R)
    (ran : (Session.impose d.write).run s = .ok (status, s')) :
    s.Propagates R (fun a => d.Keeps a) (status = .ok ()) s' := by
  rcases Session.impose_cases ran with ⟨known, -, rfl⟩ |
    ⟨-, ⟨wrote, rfl, rfl⟩ | ⟨domains, e, wrote, propagated, rfl⟩⟩
  · exact .refused known
  · have same : s.engine.Follows s.engine.dropEvents := Engine.follows_of_rows sane
    refine .ended same (Nat.le_refl _) id fun a _ keeps admits => ?_
    obtain ⟨_, left, -⟩ := Decision.exists_write sane.wellFormed_now admits keeps wrote
    cases left
  · obtain ⟨wellFormed, evolves⟩ := d.writes _ _ sane.wellFormed_now wrote
    have moved : s.engine.store.Evolves [] (s.engine.withDomains domains).store :=
      ⟨wellFormed, evolves, .refl _⟩
    have start := Engine.follows_of_evolves sane moved
    have changed : s.engine.change d.write = .ok (.ok (), s.engine.withDomains domains) :=
      bind_eq_ok_iff.2 ⟨some domains, wrote, rfl⟩
    obtain ⟨follows, size, keeps⟩ := Engine.sound_of_loop start.sane propagated
    have closed : (e.closed status).propagators.size = s.engine.propagators.size := by
      cases status <;> exact size
    refine .ended ((start.trans follows).trans (Engine.follows_closed follows.sane _))
      (Nat.le_of_eq closed.symm) id fun a related kept admits => ?_
    rw [closed] at related
    obtain ⟨_, left, admits'⟩ := Decision.exists_write sane.wellFormed_now admits kept wrote
    cases left
    obtain ⟨rfl, admits''⟩ := keeps (sound _ changed) a related admits'
    exact ⟨rfl, admits''⟩

theorem propagates_propagate {s s' : Solver P} {status : Status} (sane : s.engine.store.Sane)
    (sound : s.engine.Trusts R) (ran : Session.propagate.run s = .ok (status, s')) :
    s.Propagates R (fun _ => True) (status = .ok ()) s' := by
  rcases Session.propagate_cases ran with ⟨known, -, rfl⟩ | ⟨-, e, propagated, rfl⟩
  · exact .refused known
  · obtain ⟨follows, size, keeps⟩ := Engine.sound_of_loop sane propagated
    exact .ended follows (Nat.le_of_eq size.symm) id fun a related _ =>
      keeps sound a (by rwa [size] at related)

theorem propagates_add {s s' : Solver P} {b : Blueprint P} {result : Except PostError PropagatorId}
    (sane : s.engine.store.Sane)
    (sound : ∀ p e, s.engine.install b = .ok (p, e) → e.Trusts R)
    (ran : (Posting.add b).run.run s = .ok (result, s')) :
    s.Propagates R (fun _ => True) (∃ p, result = .ok p) s' := by
  rcases Posting.add_cases ran with
    ⟨known, -, rfl⟩ | ⟨-, id, e, status, e', install, propagated, rfl, answer⟩
  · exact .refused known
  · have installed := Engine.installed_of_install install
    have start : s.engine.Follows e := by
      refine ⟨installed.sane_store sane, congrArg Domains.depth installed.domains, fun k _ => ?_⟩
      rw [installed.domains]
    obtain ⟨follows, size, keeps⟩ := Engine.sound_of_loop start.sane propagated
    refine .ended (start.trans follows) ?_ (fun ok => ?_) fun a related _ admits => ?_
    · rw [size, installed.propagators, Table.size_push]
      exact Nat.le_succ _
    · subst ok
      exact ⟨id, answer⟩
    · rw [size] at related
      refine keeps (sound id e install) a related ?_
      rw [installed.domains]
      exact admits

omit [Propagator P] [Propagator.Contextual P] in
/-- What a return does. -/
theorem undoTo_spec {s s' : Solver P} {k : Nat} (ran : (Session.undoTo k).run s = .ok ((), s')) :
    ∃ domains cells, s.domains.undoTo k = .ok domains ∧
      s.engine.store.cells.undoTo k = .ok cells ∧
      s' = s.withEngine { s.engine with
        store := { s.engine.store with domains, cells }, agenda := s.engine.agenda.clear } := by
  obtain ⟨e, returned, rfl⟩ := Session.onEngine_eq_ok_iff.1 ran
  obtain ⟨e, undone, last⟩ := bind_eq_ok_iff.1 returned
  cases last
  obtain ⟨domains, cells, first, second, rfl⟩ := Engine.undoTo_spec undone
  exact ⟨domains, cells, first, second, rfl⟩

theorem sane (h : Chronicle R r) : r.Sane := by
  induction h with
  | blank => exact ⟨Store.sane_empty, fun m mem => by cases mem⟩
  | newInteger _ words ran ih =>
    obtain ⟨le, -, rfl⟩ := Session.newInteger_spec ran
    exact ⟨ih.store.addInteger ⟨le, words.1, words.2⟩, ih.depth⟩
  | newInterval _ within consistent ran ih =>
    obtain ⟨e, created, rfl⟩ := Session.onEngine_eq_ok_iff.1 ran
    obtain ⟨row, made, -, rfl⟩ := Engine.newInterval_spec created
    exact ⟨ih.store.addInterval (Interval.wellFormed_of_ofBounds within made), ih.depth⟩
  | @decide r d status s _ sound ran ih =>
    exact (r.answers_decided d status s).sane ih (propagates_impose ih.store sound ran)
  | @propagate r status s _ sound ran ih =>
    exact (r.answers_answered _ s).sane ih (propagates_propagate ih.store sound ran)
  | checkpoint _ ran ih =>
    cases ran
    exact ⟨ih.store.checkpoint, fun m mem => Nat.le_succ_of_le (ih.depth m mem)⟩
  | undoTo _ ran ih =>
    obtain ⟨domains, cells, first, second, rfl⟩ := undoTo_spec ran
    refine ⟨ih.store.undoTo first second, fun m mem => ?_⟩
    have depth := (Domains.undo_spec first).2.1
    have le : m.depth ≤ domains.depth := by
      rw [depth]
      simpa using (List.mem_filter.1 mem).2
    exact le
  | @add r b result s _ sound ran ih =>
    exact (r.answers_answered _ s).sane ih (propagates_add ih.store sound ran)

/-- Soundness, as an invariant of all checkpoints. -/
theorem respects (h : Chronicle R r) {a : Assignment} (poses : r.Poses R a) : r.Respects a := by
  induction h with
  | blank =>
    refine ⟨fun k _ => ?_, fun _ => rfl, fun entry mem => by cases mem⟩
    have rows : Domains.empty.past k = Domains.empty.rows :=
      Domains.past_of_depth_le (Nat.zero_le k)
    show (Domains.empty.past k).Admits a
    rw [rows]
    refine ⟨fun x row found => ?_, fun i row found => ?_⟩
    · cases Domains.integer_eq_ok_iff.1 found
    · cases Domains.interval_eq_ok_iff.1 found
  | newInteger before words ran ih =>
    obtain ⟨le, rfl, rfl⟩ := Session.newInteger_spec ran
    have respects := ih ⟨fun c mem => poses.integers c (List.mem_cons_of_mem _ mem),
      poses.intervals, poses.related⟩
    refine ⟨fun k keeps => ?_, respects.feasible, respects.log⟩
    exact Domains.admits_past_addInteger before.sane.store.recordedRows (respects.past k keeps)
      (poses.integers _ List.mem_cons_self)
  | newInterval before within consistent ran ih =>
    obtain ⟨e, created, rfl⟩ := Session.onEngine_eq_ok_iff.1 ran
    obtain ⟨row, made, rfl, rfl⟩ := Engine.newInterval_spec created
    have respects := ih ⟨poses.integers,
      fun c mem => poses.intervals c (List.mem_cons_of_mem _ mem), poses.related⟩
    rw [consistent] at made
    cases made
    refine ⟨fun k keeps => ?_, respects.feasible, respects.log⟩
    exact Domains.admits_past_addInterval before.sane.store.recordedRows (respects.past k keeps)
      (poses.intervals _ List.mem_cons_self)
  | @decide r d status s before sound ran ih =>
    have step := propagates_impose before.sane.store sound ran
    have earlier := ih ⟨poses.integers, poses.intervals, fun p inside =>
      poses.related p (Nat.lt_of_lt_of_le inside step.size_le)⟩
    exact (r.answers_decided d status s).respects before.sane earlier step poses.related
      fun keeps => keeps _ List.mem_cons_self
  | @propagate r status s before sound ran ih =>
    have step := propagates_propagate before.sane.store sound ran
    have earlier := ih ⟨poses.integers, poses.intervals, fun p inside =>
      poses.related p (Nat.lt_of_lt_of_le inside step.size_le)⟩
    exact (r.answers_answered _ s).respects before.sane earlier step poses.related fun _ => trivial
  | checkpoint _ ran ih =>
    cases ran
    have respects := ih ⟨poses.integers, poses.intervals, poses.related⟩
    refine ⟨fun k keeps => ?_, respects.feasible, respects.log⟩
    exact (Domains.past_checkpoint _ k).symm ▸ respects.past k keeps
  | undoTo before ran ih =>
    obtain ⟨domains, cells, first, second, rfl⟩ := undoTo_spec ran
    have respects := ih ⟨poses.integers, poses.intervals, poses.related⟩
    have past := (Domains.undo_spec first).2.2.2.1
    refine ⟨fun k keeps => ?_, fun keeps => ?_, respects.log⟩
    · refine (past k).symm ▸ respects.past _ fun m mem le => ?_
      exact keeps m (List.mem_filter.2 ⟨mem, by simp; omega⟩) (by omega)
    · exact respects.feasible fun m mem root =>
        keeps m (List.mem_filter.2 ⟨mem, by simp; omega⟩) root
  | @add r b result s before sound ran ih =>
    have step := propagates_add before.sane.store sound ran
    have earlier := ih ⟨poses.integers, poses.intervals, fun p inside =>
      poses.related p (Nat.lt_of_lt_of_le inside step.size_le)⟩
    exact (r.answers_answered _ s).respects before.sane earlier step poses.related fun _ => trivial

/-- No assignment is lost that has values of the domains with which the variables were created, is
in the relations of all propagators, and satisfies the decisions in force: it lies within the
domains, the problem is not found to be infeasible, and no operation failed that was performed
while it satisfied the decisions in force. -/
theorem keeps_solution (h : Chronicle R r) {a : Assignment} (poses : r.Poses R a)
    (keeps : ∀ m ∈ r.inForce, m.decision.Keeps a) :
    r.solver.domains.Admits a ∧ r.solver.isInfeasible = false ∧
      ∀ entry ∈ r.log, (∀ m ∈ entry.1, m.decision.Keeps a) → entry.2.IsPositive :=
  have respects := h.respects poses
  ⟨respects.admits keeps, respects.feasible fun m mem _ => keeps m mem, respects.log⟩

end Chronicle

/-! ## A propagator that raises a bound -/

/-- The script of a propagator that keeps the first variable at three or more. -/
def Script.raising : List (List Action) := [[.setBound ⟨.plain ⟨0⟩, []⟩ .lower 3]]

/-- The propagator has that script. -/
def Rule.isRaising : Rule → Bool
  | .script s => s.lists = Script.raising
  | _ => false

/-- The first variable is at least three. -/
def AtLeastThree (_ : PropagatorId) (a : Assignment) : Prop := 3 ≤ a.integer ⟨0⟩

theorem Rule.spares_of_isRaising {f : Engine Rule} {p : PropagatorId} {q : Rule}
    (row : f.propagators.get? p.index = some q) (raising : q.isRaising = true) {a : Assignment}
    (atLeast : 3 ≤ a.integer ⟨0⟩) : f.Spares p a := by
  intro wellFormed admits status f' called
  obtain ⟨activity, q, q', s', -, row', ran, rfl⟩ := Engine.call_spec called
  rw [row] at row'
  cases row'
  cases q with
  | script s =>
    have lists : s.lists = Script.raising := of_decide_eq_true raising
    have actions : s.actions = [.setBound ⟨.plain ⟨0⟩, []⟩ .lower 3] := by
      simp only [Script.actions, lists, Script.raising]
      cases s.runs <;> rfl
    obtain ⟨s', -, ran⟩ := Rule.lift_spec ran
    have ran : (Script.run ⟨p, activity⟩ s).run f.store = .ok ((s', status), _) := ran
    obtain ⟨⟨readings, status'⟩, s₁, performed, noted⟩ := run_bind_eq_ok_iff.1 ran
    cases noted
    rw [actions] at performed
    obtain ⟨outcome, s₂, ran, rest⟩ := run_bind_eq_ok_iff.1 performed
    obtain ⟨v, made, ran⟩ := Propagation.exec_inspect_bind_eq_ok_iff.1 ran
    cases made
    have atLeast : Side.lower.Keeps 3 (a.value (.plain ⟨0⟩)) := atLeast
    have changed := Propagation.exec_change ((Variable.plain ⟨0⟩).setBound .lower 3) f.store
    rw [Propagation.exec_bind, Propagation.setBound, changed] at ran
    cases wrote : (Variable.plain ⟨0⟩).setBound .lower 3 f.store.domains with
    | error fault =>
      rw [wrote] at ran
      cases ran
    | ok left =>
      obtain ⟨d, rfl, admits'⟩ := Domains.admits_of_setBound wellFormed admits atLeast wrote
      rw [wrote] at ran
      cases ran
      cases rest
      exact ⟨rfl, admits'⟩
  | _ => cases raising

/-- Only such propagators are called. -/
def Engine.callsRaising (e : Engine Rule) : Bool :=
  (e.callers e.rounds).all fun c => (c.2.propagators.get? c.1.index).any Rule.isRaising

theorem Engine.trusts_of_callsRaising {α : Type} {x : Except Fault (α × Engine Rule)} {b : α}
    {e : Engine Rule} (h : x.toOption.map (·.2.callsRaising) = some true) (made : x = .ok (b, e)) :
    e.Trusts AtLeastThree := by
  subst made
  intro p f calls a atLeast
  have raising := List.all_eq_true.1 (Option.some.inj h) _ (mem_callers calls)
  obtain ⟨q, row, raising⟩ := (Option.any_eq_true _ _).1 raising
  exact Rule.spares_of_isRaising row raising atLeast

/-- It is called when the second variable changes. -/
def raiser : Blueprint Rule :=
  ⟨[.variable (.plain ⟨1⟩) .bounds], [], fun _ _ => .script ⟨.high, Script.raising, 0⟩, fun _ => []⟩

/-- A decision for high values of the second variable, which is undone later. -/
def highDecision : Decision := .setBound (.plain ⟨1⟩) .lower 5

/-- A decision for low values of the second variable. -/
def lowDecision : Decision := .setBound (.plain ⟨1⟩) .upper 4

namespace Raised

/-- One variable with values up to nine. -/
def first : Solver Rule := (Session.newInteger 0 9).after .empty

/-- Another one. -/
def second : Solver Rule := (Session.newInteger 0 9).after first

/-- The propagator is posted. -/
def posted : Solver Rule := (Posting.add raiser).run.after second

/-- A checkpoint is opened. -/
def opened : Solver Rule := Session.checkpoint.after posted

/-- The decision for high values is made. -/
def high : Solver Rule := (Session.impose highDecision.write).after opened

/-- It is undone. -/
def back : Solver Rule := (Session.undoTo 0).after high

/-- The decision for low values is made. -/
def low : Solver Rule := (Session.impose lowDecision.write).after back

/-- The whole run. -/
def record : Record Rule where
  solver := low
  integers := [(⟨1⟩, ⟨0, 9⟩), (⟨0⟩, ⟨0, 9⟩)]
  intervals := []
  inForce := [⟨0, lowDecision⟩]
  log := [([⟨0, lowDecision⟩], .ended (.ok ())), ([⟨1, highDecision⟩], .ended (.ok ())),
    ([], .posted (.ok ⟨0⟩))]

/-- The first variable has the value three, and the second one four. -/
def values : Assignment := ⟨fun x => if x.index = 0 then 3 else 4, fun _ => .absent⟩

end Raised

open Raised in
theorem Chronicle.keeps_solution_raised : record.solver.domains.Admits values ∧
    record.solver.isInfeasible = false ∧
    ∀ entry ∈ record.log, (∀ m ∈ entry.1, m.decision.Keeps values) → entry.2.IsPositive := by
  have answers : ((Session.newInteger 0 9).answer? (.empty : Solver Rule),
      (Session.newInteger 0 9).answer? first, (Posting.add raiser).run.answer? second,
      Session.checkpoint.answer? posted, (Session.impose highDecision.write).answer? opened,
      (Session.undoTo 0).answer? high, (Session.impose lowDecision.write).answer? back) =
        (some ⟨0⟩, some ⟨1⟩, some (.ok ⟨0⟩), some (), some (.ok ()), some (), some (.ok ())) := by
    cbv
  have facts : ((second.engine.install raiser).toOption.map (·.2.callsRaising),
      (opened.engine.change highDecision.write).toOption.map (·.2.callsRaising),
      (back.engine.change lowDecision.write).toOption.map (·.2.callsRaising),
      opened.engine.depth, back.engine.depth) = (some true, some true, some true, 1, 0) := by cbv
  simp only [Prod.mk.injEq] at answers facts
  obtain ⟨made, made', posts, opens, tries, returns, decides⟩ := answers
  obtain ⟨posting, trying, deciding, deep, root⟩ := facts
  have words : Width.w32.Holds 0 ∧ Width.w32.Holds 9 := by decide
  have start : Chronicle AtLeastThree ⟨second, [(⟨1⟩, ⟨0, 9⟩), (⟨0⟩, ⟨0, 9⟩)], [], [], []⟩ :=
    (Chronicle.blank.newInteger words (Session.run_eq_of_answer? made)).newInteger words
      (Session.run_eq_of_answer? made')
  have above : Chronicle AtLeastThree ⟨opened, [(⟨1⟩, ⟨0, 9⟩), (⟨0⟩, ⟨0, 9⟩)], [], [],
      [([], .posted (.ok ⟨0⟩))]⟩ :=
    (start.add (fun _ _ => Engine.trusts_of_callsRaising posting)
      (Session.run_eq_of_answer? posts)).checkpoint (Session.run_eq_of_answer? opens)
  have tried : Chronicle AtLeastThree ⟨high, [(⟨1⟩, ⟨0, 9⟩), (⟨0⟩, ⟨0, 9⟩)], [],
      [⟨1, highDecision⟩], [([⟨1, highDecision⟩], .ended (.ok ())), ([], .posted (.ok ⟨0⟩))]⟩ := by
    rw [← deep]
    exact above.decide (fun _ => Engine.trusts_of_callsRaising trying)
      (Session.run_eq_of_answer? tries)
  have chronicle : Chronicle AtLeastThree record := by
    have returned := tried.undoTo (Session.run_eq_of_answer? returns)
    have decided := returned.decide (fun _ => Engine.trusts_of_callsRaising deciding)
      (Session.run_eq_of_answer? decides)
    rw [record, ← root]
    exact decided
  refine chronicle.keeps_solution ⟨by decide, by decide, fun p _ => Int.le_refl 3⟩ fun m mem => ?_
  obtain rfl := List.mem_singleton.1 mem
  exact Int.le_refl 4

end Scheduling
