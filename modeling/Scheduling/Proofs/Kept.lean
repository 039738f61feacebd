import Scheduling.Proofs.Cumulative.Enforcement
import Scheduling.Proofs.Disjunctive.Placement
import Scheduling.Proofs.Turns

/-!
# Propagators kept across a return

A propagator that is added beyond a checkpoint stays when the search returns to it. It is then
active again, also if its first propagation failed or switched it off, but it does not wait: nobody
runs it on the restored domains before an event happens for which it is registered.

Results:
* `Engine.AddedBeyond`: what is kept about the propagator up to the return.
* `Engine.takes_part_again`: after the return it is active, and gets a turn after every event for
  which it is registered.
* `Cumulative.exists_violation_of_kept`: a propagation right after the return succeeds although the
  kept propagator would fail.
-/

namespace Scheduling

namespace Engine

variable {P : Type} {e e' : Engine P} {p : PropagatorId} {b : Blueprint P} {j : Nat}

/-- The propagator was added beyond checkpoint `j`, and the engine is still beyond it: at this
checkpoint the propagator is active. -/
structure AddedBeyond (e : Engine P) (p : PropagatorId) (b : Blueprint P) (j : Nat) : Prop where
  order : e.InOrder
  beyond : j < e.depth
  active : ∃ activity, e.activity.get? p.index = some activity ∧
    (e.store.cells.past j).get? activity.index = some 1
  registered : ∀ watch ∈ b.watches, ∀ v event, watch.Tells v event →
    p ∈ e.watches.affected event v

namespace AddedBeyond

/-- Later propagators and cells, and what happens beyond the checkpoint, do not matter. -/
theorem transport (h : e.AddedBeyond p b j) (order : e'.InOrder) (beyond : j < e'.depth)
    (activity : ∀ cell, e.activity.get? p.index = some cell → e'.activity.get? p.index = some cell)
    (cells : ∀ cell, (e.store.cells.past j).get? cell = some 1 →
      (e'.store.cells.past j).get? cell = some 1)
    (watches : ∀ v event, p ∈ e.watches.affected event v → p ∈ e'.watches.affected event v) :
    e'.AddedBeyond p b j := by
  obtain ⟨cell, here, one⟩ := h.active
  exact ⟨order, beyond, ⟨cell, activity cell here, cells _ one⟩,
    fun watch mem v event tells => watches v event (h.registered watch mem v event tells)⟩

/-- A return to a later checkpoint. -/
theorem undoTo (h : e.AddedBeyond p b j) {k : Nat} (later : j < k) (undone : e.undoTo k = .ok e') :
    e'.AddedBeyond p b j := by
  obtain ⟨domains, cells, first, second, rfl⟩ := undoTo_spec undone
  obtain ⟨-, depth, -⟩ := Domains.undo_spec first
  obtain ⟨-, -, past, -⟩ := Cells.undo_spec second
  have order : InOrder { e with
      store := { e.store with domains, cells }, agenda := e.agenda.clear } :=
    ⟨h.order.store.undoTo first second, Agenda.valid_clear _, h.order.size⟩
  refine h.transport order (Nat.lt_of_lt_of_eq later depth.symm) (fun _ => id)
    (fun cell one => ?_) fun _ _ => id
  have same : cells.past j = e.store.cells.past j := by
    rw [past, Nat.min_eq_right (Nat.le_of_lt later)]
  show (cells.past j).get? cell = some 1
  rw [same]
  exact one

/-- With the return to the checkpoint the propagator is active. -/
theorem isActive_of_undoTo (h : e.AddedBeyond p b j) (undone : e.undoTo j = .ok e') :
    e'.isActive p = .ok true := by
  obtain ⟨activity, here, one⟩ := h.active
  obtain ⟨domains, cells, first, second, rfl⟩ := undoTo_spec undone
  obtain ⟨-, depth, past, -⟩ := Cells.undo_spec second
  have now : cells.values.get? activity.index = some 1 := by
    rw [← Cells.past_of_depth_le (Nat.le_of_eq depth), past, Nat.min_self]
    exact one
  exact bind_eq_ok_iff.2 ⟨activity, Table.read_eq_ok_iff.2 here,
    bind_eq_ok_iff.2 ⟨1, Cells.read_eq_ok_iff.2 now, rfl⟩⟩

variable [Propagator P] [Propagator.Stepwise P]

theorem moves (h : e.AddedBeyond p b j) (move : e.Moves e') : e'.AddedBeyond p b j := by
  have order := (move.narrows h.order).1
  have watches (v : Watched) (event : Event) (mem : p ∈ e.watches.affected event v) :
      p ∈ e'.watches.affected event v := move.mem_affected h.order mem
  cases move with
  | newInteger wellFormed => exact h.transport order h.beyond (fun _ => id) (fun _ => id) watches
  | newInterval within made =>
    obtain ⟨row, -, -, rfl⟩ := newInterval_spec made
    exact h.transport order h.beyond (fun _ => id) (fun _ => id) watches
  | @decide _ d status changed =>
    obtain ⟨left, wrote, changed⟩ := bind_eq_ok_iff.1 changed
    cases left with
    | none =>
      cases changed
      exact h
    | some domains =>
      cases changed
      have evolves := (d.evolves_of_write h.order.store.wellFormed_now wrote).2
      exact h.transport order (Nat.lt_of_lt_of_eq h.beyond evolves.depth.symm) (fun _ => id)
        (fun _ => id) watches
  | propagate ran =>
    obtain ⟨turns, given⟩ := turns_of_loop ran
    have continues := (given.continues h.order).1
    refine h.transport order (by rw [continues.depth]; exact h.beyond) (fun cell here => ?_)
      (fun cell one => ?_) watches
    · rw [continues.activity]
      exact here
    · rw [continues.cells j h.beyond]
      exact one
  | install made =>
    have installed := installed_of_install made
    have depth : e'.depth = e.depth := congrArg Domains.depth installed.domains
    refine h.transport order (by rw [depth]; exact h.beyond) (fun cell here => ?_)
      (fun cell one => ?_) watches
    · have known := Table.lt_size_of_get? here
      rw [installed.activity, Table.get?_push, if_neg (Nat.ne_of_lt known)]
      exact here
    · have known := Table.lt_size_of_get? one
      rw [installed.cells, (Cells.foldl_grow_spec h.order.store.recordedCells _).2.2.2,
        Table.get?_foldl_push, if_pos known]
      exact one
  | checkpoint =>
    refine h.transport order (Nat.lt_succ_of_lt h.beyond) (fun _ => id) (fun cell one => ?_) watches
    show (e.store.cells.checkpoint.past j).get? cell = some 1
    rw [Cells.past_checkpoint]
    exact one
  | dropEvents => exact h.transport order h.beyond (fun _ => id) (fun _ => id) watches
  | say m => exact h.transport order h.beyond (fun _ => id) (fun _ => id) watches
  | takeNotes => exact h.transport order h.beyond (fun _ => id) (fun _ => id) watches

end AddedBeyond

variable [Propagator P]

theorem addedBeyond_of_install (order : e.InOrder) (beyond : j < e.depth)
    (order' : e'.InOrder) (made : e.install b = .ok (p, e')) : e'.AddedBeyond p b j := by
  have installed := installed_of_install made
  have depth : e'.depth = e.depth := congrArg Domains.depth installed.domains
  have key : p.index = e.activity.size := by rw [installed.key, order.size]
  refine ⟨order', by rw [depth]; exact beyond, ⟨⟨e.store.cells.values.size⟩, ?_, ?_⟩,
    fun watch mem v event tells => ?_⟩
  · rw [installed.activity, Table.get?_push, if_pos key]
  · rw [installed.cells, (Cells.foldl_grow_spec order.store.recordedCells _).2.2.2,
      Table.get?_foldl_push, Cells.size_past, if_neg (Nat.lt_irrefl _), Nat.sub_self]
    rfl
  · rw [installed.watches, WatchLists.mem_affected_foldl_register]
    exact .inr ⟨⟨watch, mem, tells⟩, rfl⟩

/-- Operations, and returns to checkpoints later than `j`. -/
inductive Stays (j : Nat) : Engine P → Engine P → Prop
  | moves {e e' : Engine P} (move : e.Moves e') : Stays j e e'
  | undoTo {e e' : Engine P} {k : Nat} (later : j < k) (undone : e.undoTo k = .ok e') :
    Stays j e e'

theorem Accessible.stays (h : e.Accessible) (stays : Relation.ReflTransGen (Stays j) e e') :
    e'.Accessible := by
  induction stays with
  | refl => exact h
  | tail _ step ih =>
    cases step with
    | moves move => exact .moves ih move
    | undoTo later undone => exact .undoTo ih undone

variable [Propagator.Stepwise P]

theorem AddedBeyond.stays (h : e.AddedBeyond p b j)
    (stays : Relation.ReflTransGen (Stays j) e e') : e'.AddedBeyond p b j := by
  induction stays with
  | refl => exact h
  | tail _ step ih =>
    cases step with
    | moves move => exact ih.moves move
    | undoTo later undone => exact ih.undoTo later undone

/-- A propagator that was added beyond a checkpoint is kept when the search returns to it. It is
active then, and takes part in propagation again as soon as something happens for which it is
registered: in a later propagation that succeeds it gets a turn after every such event, be it
pending at the start or recorded in a turn. -/
theorem takes_part_again {e₁ e₂ e₃ e₄ : Engine P} {rounds : Nat} (accessible : e.Accessible)
    (beyond : j < e.depth) (made : e.install b = .ok (p, e₁))
    (stays : Relation.ReflTransGen (Stays j) e₁ e₂) (undone : e₂.undoTo j = .ok e₃)
    (moves : Relation.ReflTransGen Moves e₃ e₄) (ran : e₄.loop rounds = .ok (.ok (), e')) :
    e₃.isActive p = .ok true ∧ ∃ turns, e₄.Turns turns (.ok ()) e' ∧
      ∀ watch ∈ b.watches, ∀ v event, watch.Tells v event →
        ((v, event) ∈ e₄.domains.events → ∃ t ∈ turns, t.propagator = p ∧ t.Taken (.ok ())) ∧
        ∀ before t after, turns = before ++ t :: after → t.Records v event →
          ∃ t' ∈ after, t'.propagator = p ∧ t'.Taken (.ok ()) := by
  have added₁ : e₁.Accessible := .moves accessible (.install made)
  have added := (addedBeyond_of_install accessible.order beyond added₁.order made).stays stays
  have returned : e₃.Accessible := (added₁.stays stays).undoTo undone
  obtain ⟨-, turns, given, known⟩ := no_event_is_lost (returned.trans moves) ran
  refine ⟨added.isActive_of_undoTo undone, turns, given, fun watch mem v event tells => ?_⟩
  have registered : p ∈ e₃.watches.affected event v := by
    obtain ⟨domains, cells, -, -, rfl⟩ := undoTo_spec undone
    exact added.registered watch mem v event tells
  exact known rfl v event p (returned.mem_affected moves registered)

end Engine

/-! ## A propagator that is woken after the return -/

namespace Kept

/-- One variable with values up to nine, beyond a checkpoint. -/
def opened : Engine Rule := ((.empty : Engine Rule).newInteger ⟨0, 9⟩).2.checkpoint

/-- A propagator is added. -/
def installed : Engine Rule := .left (opened.install selfWaker)

/-- It raises the variable. -/
def raised : Engine Rule := .left (installed.loop 3)

/-- The checkpoint is returned to. -/
def returned : Engine Rule := (raised.undoTo 0).toOption.getD .empty

/-- A decision for the variable. -/
def decision : Decision := .setBound (.plain ⟨0⟩) .lower 1

/-- It is made. -/
def decided : Engine Rule := .left (returned.change decision.write)

/-- It is propagated. -/
def settled : Engine Rule := .left (decided.loop 3)

end Kept

open Kept in
theorem Engine.takes_part_again_kept : returned.isActive ⟨0⟩ = .ok true ∧
    ∃ turns, decided.Turns turns (.ok ()) settled ∧
      ∃ t ∈ turns, t.propagator = ⟨0⟩ ∧ t.Taken (.ok ()) := by
  have row : (⟨0, 9⟩ : IntegerDomain).WellFormed := ⟨by decide, by decide, by decide⟩
  have accessible : opened.Accessible :=
    .moves (.moves .empty (.newInteger row)) .checkpoint
  have made : opened.install selfWaker = .ok (⟨0⟩, installed) := rfl
  have undone : raised.undoTo 0 = .ok returned := rfl
  have changed : returned.change decision.write = .ok (.ok (), decided) := rfl
  have succeeds : ((installed.loop 3).toOption.map (·.1), (decided.loop 3).toOption.map (·.1)) =
      (some (.ok ()), some (.ok ())) := by cbv
  obtain ⟨raises, settles⟩ := Prod.mk.inj succeeds
  obtain ⟨active, turns, given, known⟩ := takes_part_again accessible (by decide) made
    (.single (.moves (.propagate (eq_ok_left raises)))) undone (.single (.decide changed))
    (eq_ok_left settles)
  have tells : (Watch.variable (.plain ⟨0⟩) .bounds).Tells (.integer ⟨0⟩) .lowerBound :=
    ⟨rfl, by decide⟩
  have pending : (.integer ⟨0⟩, .lowerBound) ∈ decided.domains.events := by decide
  exact ⟨active, turns, given, (known _ (by simp [selfWaker]) _ _ tells).1 pending⟩

/-! ## A propagator that is not run after the return -/

namespace Cumulative

/-- Two present intervals that overlap, and a height of `1`, beyond a checkpoint. -/
def clash : State :=
  .reach [.newInteger 1 1, .newInterval ⟨0, 0, 5, 5, 5, 5⟩ .present,
    .newInterval ⟨3, 3, 8, 8, 5, 5⟩ .present, .checkpoint]

/-- The solver after the constraint was posted. -/
def clashPosted : Solver Rule := pairConstraint.post.run.after clash.solver

/-- The solver after the return to the checkpoint. -/
def clashReturned : Solver Rule := (Session.undoTo 0).after clashPosted

/-- The solver after a propagation. -/
def clashPropagated : Solver Rule := Session.propagate.after clashReturned

/-- A constraint is posted beyond a checkpoint that its two intervals violate, and fails. It is kept
when the search returns, and active. Yet the next propagation succeeds, on domains of which no
assignment satisfies the constraint; the propagator would state the conflict if it was run. -/
theorem exists_violation_of_kept : ∃ (c : State) (s₁ s₂ s₃ : Solver Rule), Reachable c ∧
    c.last = .done ∧ c.solver.engine.depth = 1 ∧
    pairConstraint.post.run.run c.solver = .ok (.error .infeasiblePropagator, s₁) ∧
    (Session.undoTo 0).run s₁ = .ok ((), s₂) ∧
    Session.propagate.run s₂ = .ok (.ok (), s₃) ∧ s₃.engine.isActive ⟨0⟩ = .ok true ∧
    ((∃ a, s₃.domains.Admits a) ∧ ∀ a, s₃.domains.Admits a → ¬ pairConstraint.Holds a) ∧
    (s₃.engine.call ⟨0⟩).toOption.map (·.1) = some (.error (.conflict Resource.name)) := by
  have answers : (clash.last, clash.solver.engine.depth,
      pairConstraint.post.run.answer? clash.solver, (Session.undoTo 0).answer? clashPosted,
      Session.propagate.answer? clashReturned) =
        (.done, 1, some (.error .infeasiblePropagator), some (), some (.ok ())) := by cbv
  have final : (clashPropagated.engine.isActive ⟨0⟩, clashPropagated.domains.integers,
      clashPropagated.domains.intervals,
      (clashPropagated.engine.call ⟨0⟩).toOption.map (·.1)) =
        (.ok true, .ofList [⟨1, 1⟩],
          .ofList [⟨⟨0, 0, 5, 5, 5, 5⟩, .present⟩, ⟨⟨3, 3, 8, 8, 5, 5⟩, .present⟩],
          some (.error (.conflict Resource.name))) := by cbv
  simp only [Prod.mk.injEq] at answers final
  obtain ⟨last, depth, posted, returned, propagated⟩ := answers
  obtain ⟨active, integers, intervals, called⟩ := final
  refine ⟨clash, clashPosted, clashReturned, clashPropagated, reachable_reach _, last, depth,
    Session.run_eq_of_answer? posted, Session.run_eq_of_answer? returned,
    Session.run_eq_of_answer? propagated, active, ⟨?_, ?_⟩, called⟩
  · refine ⟨⟨fun _ => 1, fun i => if i.index = 0 then .placed 0 5 else .placed 3 5⟩, ?_⟩
    rw [Domains.admits_iff, integers, intervals]
    decide
  · intro a admits holds
    have height : a.integer ⟨0⟩ = 1 := by
      have row : clashPropagated.domains.integer ⟨0⟩ = .ok ⟨1, 1⟩ := by
        rw [Domains.integer, integers]
        rfl
      obtain ⟨low, high⟩ := admits.integer _ _ row
      exact Int.le_antisymm high low
    have first : a.interval ⟨0⟩ = .placed 0 5 :=
      admits.interval_eq_of_places ⟨⟨⟨0, 0, 5, 5, 5, 5⟩, .present⟩, by
        rw [Domains.interval, intervals]
        rfl, rfl, rfl, rfl, rfl, rfl⟩
    have second : a.interval ⟨1⟩ = .placed 3 5 :=
      admits.interval_eq_of_places ⟨⟨⟨3, 3, 8, 8, 5, 5⟩, .present⟩, by
        rw [Domains.interval, intervals]
        rfl, rfl, rfl, rfl, rfl, rfl⟩
    have value : a.value pairHeight = 1 := by
      show 1 * a.integer ⟨0⟩ + 0 = 1
      rw [height]
      rfl
    -- At time three both intervals execute.
    have level : a.level pairConstraint.activities 3 ≤ 1 :=
      (holds 3 ⟨_, List.mem_cons_self, by rw [first]; decide⟩).2 1 rfl
    simp [Assignment.level, pairConstraint, Assignment.contribution, first, second, value,
      IntervalValue.executesAt] at level

end Cumulative

end Scheduling
