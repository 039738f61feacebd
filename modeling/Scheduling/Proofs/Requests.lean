import Scheduling.Proofs.Synchronisation
import Scheduling.Proofs.Turns

/-!
# Domains of a solver with any propagators

Users make requests to a solver: new variables, decisions, propagation, checkpoints and returns, and
new propagators of any kind that work on the store through their context only. Between two returns
domains only shrink, whether requests succeed or fail.

Results:
* `Request`, `Solver.Accessible`: the requests and the solvers that they lead to.
* `Request.moves`: what a request does to the engine.
* `Solver.Accessible.domains_shrink`: the domains of every such solver are well-formed, and only a
  return adds values to them.
-/

namespace Scheduling

/-- A request to a solver. The values of a new integer variable are words of 32 bits. -/
inductive Request (P : Type)
  | newInteger (lower upper : Int) (words : Width.w32.Holds lower ∧ Width.w32.Holds upper)
  | newLiteral
  | newInterval (startMin startMax lengthMin lengthMax : Int) (isOptional : Bool)
  /-- An interval with the presence of a source that ends at the horizon, with its propagator. -/
  | newTarget (source : IntervalId) (b : IntervalId → Blueprint P)
  | decide (d : Decision)
  | propagate
  | checkpoint
  | undoTo (checkpoint : Nat)
  | add (b : Blueprint P)
  | say (m : Message)
  | takeNotes

namespace Request

variable {P : Type}

/-- The request returns to a checkpoint. -/
def isReturn : Request P → Bool
  | undoTo _ => true
  | _ => false

/-- Performs the request, whatever the answer. -/
def perform [Propagator P] : Request P → Session P Unit
  | newInteger lower upper _ => do
    let _ ← Session.newInteger lower upper
    return ()
  | newLiteral => do
    let _ ← Session.newLiteral
    return ()
  | newInterval startMin startMax lengthMin lengthMax isOptional => do
    let _ ← Session.newInterval startMin startMax lengthMin lengthMax isOptional
    return ()
  | newTarget source b => do
    let v ← Session.inspect (·.interval source)
    let target ← Session.onEngine (·.newInterval Synchronisation.targetBounds v.presence)
    let _ ← (Posting.add (b target)).run
    return ()
  | decide d => do
    let _ ← Session.impose d.write
    return ()
  | propagate => do
    let _ ← Session.propagate
    return ()
  | checkpoint => Session.checkpoint
  | undoTo k => Session.undoTo k
  | add b => do
    let _ ← (Posting.add b).run
    return ()
  | say m => Session.say m
  | takeNotes => do
    let _ ← Session.takeNotes
    return ()

/-- A new interval that follows another one is such a request. -/
theorem perform_newTarget (source : IntervalId) (point : Endpoint) :
    (newTarget source fun target =>
      (Synchronisation.blueprint ⟨source, target, point⟩).map Rule.synchronisation).perform =
        (do let _ ← (Posting.newSynchronisedInterval source point).run; return ()) := by
  unfold perform Posting.newSynchronisedInterval
  simp [ExceptT.run_bind, Synchronisation.targetBounds]

/-- A step whose answer does not matter. -/
theorem run_discard_iff {α : Type} {x : Session P α} {s s' : Solver P} :
    (do let _ ← x; return () : Session P Unit).run s = .ok ((), s') ↔
      ∃ a, x.run s = .ok (a, s') := by
  rw [run_bind_eq_ok_iff]
  constructor
  · rintro ⟨a, s₁, ran, last⟩
    cases last
    exact ⟨a, ran⟩
  · rintro ⟨a, ran⟩
    exact ⟨a, s', ran, rfl⟩

variable [Propagator P] {s s' : Solver P}

/-- The first failure at the root is noted. -/
theorem moves_ended (s : Solver P) (status : Status) :
    Relation.ReflTransGen Engine.Moves s.engine (s.ended status).engine := by
  cases status with
  | ok => exact .refl
  | error cause =>
    simp only [Solver.ended, Solver.markInfeasible]
    split
    · exact .single (.say _)
    · exact .refl

theorem moves_add {b : Blueprint P} {result : Except PostError PropagatorId}
    (ran : (Posting.add b).run.run s = .ok (result, s')) :
    Relation.ReflTransGen Engine.Moves s.engine s'.engine := by
  rcases Posting.add_cases ran with
    ⟨-, -, rfl⟩ | ⟨-, id, e, status, e', installed, propagated, rfl, -⟩
  · exact .refl
  · exact .head (.install installed) (.head (.propagate propagated)
      (moves_ended (s.withEngine e') status))

/-- A request moves the engine, unless it is a return. -/
theorem moves {r : Request P} (forward : r.isReturn = false)
    (ran : r.perform.run s = .ok ((), s')) :
    Relation.ReflTransGen Engine.Moves s.engine s'.engine := by
  cases r with
  | newInteger lower upper words =>
    obtain ⟨x, made⟩ := run_discard_iff.1 ran
    obtain ⟨le, -, rfl⟩ := Session.newInteger_spec made
    exact .single (.newInteger ⟨le, words.1, words.2⟩)
  | newLiteral =>
    obtain ⟨l, made⟩ := run_discard_iff.1 ran
    cases made
    exact .single (.newInteger ⟨by decide, by decide, by decide⟩)
  | newInterval startMin startMax lengthMin lengthMax isOptional =>
    obtain ⟨i, made⟩ := run_discard_iff.1 ran
    obtain ⟨bounds, presence, e, within, grown, rfl⟩ := Session.newInterval_spec made
    exact .single (.newInterval within grown)
  | newTarget source b =>
    obtain ⟨v, s₁, read, ran⟩ := run_bind_eq_ok_iff.1 ran
    obtain ⟨target, s₂, made, ran⟩ := run_bind_eq_ok_iff.1 ran
    obtain ⟨result, added⟩ := run_discard_iff.1 ran
    obtain ⟨_, _, got, read⟩ := run_bind_eq_ok_iff.1 read
    cases got
    obtain ⟨-, rfl⟩ := run_liftM_eq_ok_iff.1 read
    obtain ⟨e, grown, rfl⟩ := Session.onEngine_eq_ok_iff.1 made
    exact .head (.newInterval Synchronisation.withinHorizon_targetBounds grown) (moves_add added)
  | decide d =>
    obtain ⟨status, imposed⟩ := run_discard_iff.1 ran
    rcases Session.impose_cases imposed with ⟨-, -, rfl⟩ |
      ⟨-, ⟨-, -, rfl⟩ | ⟨domains, e, wrote, propagated, rfl⟩⟩
    · exact .refl
    · exact .head .dropEvents (moves_ended (s.withEngine s.engine.dropEvents) status)
    · have changed : s.engine.change d.write = .ok (.ok (), s.engine.withDomains domains) :=
        bind_eq_ok_iff.2 ⟨some domains, wrote, rfl⟩
      have closed : Relation.ReflTransGen Engine.Moves e (e.closed status) := by
        cases status with
        | ok => exact .refl
        | error cause => exact .single .dropEvents
      exact .head (.decide changed) (.head (.propagate propagated) (closed.trans
        (moves_ended (s.withEngine (e.closed status)) status)))
  | propagate =>
    obtain ⟨status, propagated⟩ := run_discard_iff.1 ran
    rcases Session.propagate_cases propagated with ⟨-, -, rfl⟩ | ⟨-, e, reached, rfl⟩
    · exact .refl
    · exact .head (.propagate reached) (moves_ended (s.withEngine e) status)
  | checkpoint =>
    cases ran
    exact .single .checkpoint
  | undoTo k => cases forward
  | add b =>
    obtain ⟨result, added⟩ := run_discard_iff.1 ran
    exact moves_add added
  | say m =>
    cases ran
    exact .single (.say m)
  | takeNotes =>
    obtain ⟨notes, taken⟩ := run_discard_iff.1 ran
    cases taken
    exact .single .takeNotes

end Request

/-! ## Well-formed domains -/

section

variable {P : Type} [Propagator P]

/-- The solvers to which requests lead from an empty one. -/
def Solver.Accessible (s : Solver P) : Prop :=
  ∃ requests : List (Request P), (requests.forM Request.perform).run .empty = .ok ((), s)

/-- Requests one after the other. -/
theorem Request.run_cons_iff {r : Request P} {requests : List (Request P)} {s s' : Solver P} :
    ((r :: requests).forM Request.perform).run s = .ok ((), s') ↔
      ∃ s₁, r.perform.run s = .ok ((), s₁) ∧ (requests.forM Request.perform).run s₁ = .ok ((), s') := by
  show (r.perform >>= fun _ => requests.forM Request.perform).run s = _ ↔ _
  rw [run_bind_eq_ok_iff]
  exact ⟨fun ⟨_, s₁, first, rest⟩ => ⟨s₁, first, rest⟩, fun ⟨s₁, first, rest⟩ => ⟨(), s₁, first, rest⟩⟩

theorem Request.accessible {requests : List (Request P)} {s s' : Solver P}
    (ran : (requests.forM Request.perform).run s = .ok ((), s')) (before : s.engine.Accessible) :
    s'.engine.Accessible := by
  induction requests generalizing s with
  | nil =>
    cases ran
    exact before
  | cons r requests ih =>
    obtain ⟨s₁, first, rest⟩ := Request.run_cons_iff.1 ran
    refine ih rest ?_
    by_cases forward : r.isReturn = false
    · exact before.trans (Request.moves forward first)
    · cases r with
      | undoTo k =>
        have first : (Session.undoTo k).run s = .ok ((), s₁) := first
        obtain ⟨e, returned, rfl⟩ := Session.onEngine_eq_ok_iff.1 first
        obtain ⟨e, undone, last⟩ := bind_eq_ok_iff.1 returned
        cases last
        exact before.undoTo undone
      | _ => exact absurd rfl forward

/-- Every solver that requests lead to is in order. -/
theorem Solver.Accessible.order [Propagator.Stepwise P] {s : Solver P} (h : s.Accessible) :
    s.engine.InOrder := by
  obtain ⟨requests, ran⟩ := h
  exact (Request.accessible ran .empty).order

/-- Moves add no value to a domain. -/
theorem Engine.narrows_of_moves [Propagator.Stepwise P] {e e' : Engine P} (order : e.InOrder)
    (moves : Relation.ReflTransGen Engine.Moves e e') :
    e'.InOrder ∧ e.domains.Narrows e'.domains := by
  induction moves with
  | refl => exact ⟨order, .refl _⟩
  | tail _ move ih =>
    obtain ⟨order', narrows⟩ := move.narrows ih.1
    exact ⟨order', ih.2.trans narrows⟩

theorem Request.narrows [Propagator.Stepwise P] {requests : List (Request P)} {s s' : Solver P}
    (order : s.engine.InOrder) (forward : ∀ r ∈ requests, r.isReturn = false)
    (ran : (requests.forM Request.perform).run s = .ok ((), s')) :
    s.domains.Narrows s'.domains := by
  induction requests generalizing s with
  | nil =>
    cases ran
    exact .refl _
  | cons r requests ih =>
    obtain ⟨s₁, first, rest⟩ := Request.run_cons_iff.1 ran
    obtain ⟨order', narrows⟩ := Engine.narrows_of_moves order
      (Request.moves (forward r List.mem_cons_self) first)
    exact narrows.trans (ih order' (fun r mem => forward r (List.mem_cons_of_mem _ mem)) rest)

/-- The domains of every solver that requests lead to are well-formed: no integer domain is empty,
and the bounds of an interval, whatever its presence, lie within the horizon and are attained. Any
further requests, whether they succeed or fail, leave each domain with a subset of its values, and
no known presence changes, as long as none of them is a return. -/
theorem Solver.Accessible.domains_shrink [Propagator.Stepwise P] {s : Solver P}
    (h : s.Accessible) :
    (∀ x row, s.domains.integer x = .ok row → row.lower ≤ row.upper) ∧
    (∀ i v, s.domains.interval i = .ok v → v.toBounds.WithinHorizon ∧
      ∀ which, ∃ start length, v.toBounds.Admits start length ∧
        which.measure start length = v.toBounds.limit which) ∧
    ∀ (requests : List (Request P)) (s' : Solver P), (∀ r ∈ requests, r.isReturn = false) →
      (requests.forM Request.perform).run s = .ok ((), s') →
        (∀ x row, s.domains.integer x = .ok row → ∃ row', s'.domains.integer x = .ok row' ∧
          ∀ value, row'.Admits value → row.Admits value) ∧
        ∀ i v, s.domains.interval i = .ok v → ∃ v', s'.domains.interval i = .ok v' ∧
          (∀ value, v'.Admits value → v.Admits value) ∧
          (v.presence ≠ .optional → v'.presence = v.presence) := by
  have wellFormed := h.order.store.wellFormed_now
  refine ⟨fun x row found => (wellFormed.integer x row found).1, fun i v found => ?_,
    fun requests s' forward ran => ?_⟩
  · have settled : v.toBounds.Settled := wellFormed.interval i v found
    exact ⟨settled.withinHorizon, settled.exists_attains⟩
  · have narrows := Request.narrows h.order forward ran
    refine ⟨fun x row found => ?_, fun i v found => ?_⟩
    · obtain ⟨row', found', narrower⟩ := narrows.integer x row found
      exact ⟨row', found', fun value => narrower.admits⟩
    · obtain ⟨v', found', narrower⟩ := narrows.interval i v found
      refine ⟨v', found', fun value => narrower.admits, fun known => ?_⟩
      exact narrower.presence.resolve_left known

end

/-! ## A decision that fails -/

namespace Trimmed

/-- A variable with a propagator that raises it, and an interval. -/
def first : List (Request Rule) :=
  [.newInteger 0 9 (by decide), .newInterval 0 20 3 5 false, .add selfWaker, .checkpoint]

/-- A decision for the variable, and one for the interval that leaves it no value. -/
def second : List (Request Rule) :=
  [.decide (.setBound (.plain ⟨0⟩) .upper 7), .decide (.update ⟨0⟩ (.bound .startMin 30))]

/-- What the first requests lead to. -/
def solver : Solver Rule := (first.forM Request.perform).after .empty

theorem accessible : solver.Accessible :=
  have performed : (first.forM Request.perform).answer? .empty = some () := by cbv
  ⟨first, Session.run_eq_of_answer? performed⟩

end Trimmed

open Trimmed in
theorem Solver.Accessible.domains_shrink_trimmed :
    ∃ s', (second.forM Request.perform).run solver = .ok ((), s') ∧
      (∀ x row, solver.domains.integer x = .ok row → ∃ row', s'.domains.integer x = .ok row' ∧
        ∀ value, row'.Admits value → row.Admits value) ∧
      ∀ i v, solver.domains.interval i = .ok v → ∃ v', s'.domains.interval i = .ok v' ∧
        (∀ value, v'.Admits value → v.Admits value) ∧
        (v.presence ≠ .optional → v'.presence = v.presence) := by
  have performed : (second.forM Request.perform).answer? solver = some () := by cbv
  have ran := Session.run_eq_of_answer? performed
  have forward : ∀ r ∈ second, r.isReturn = false := by decide
  exact ⟨_, ran, accessible.domains_shrink.2.2 second _ forward ran⟩

end Scheduling
