import Scheduling.Proofs.SparseSet
import Scheduling.Rule

/-!
# Runs of the propagators of the library

A run of a propagator is a sequence of steps of its context: it makes the domains evolve, writes
none but the cells of that propagator, and does not change which cells these are.

Results:
* `Rule.reaches_of_run`: the store that a run leaves is one that steps of the context lead to.
* `Rule.evolves_of_run`: what a run may do to the store.
-/

namespace Scheduling

open Propagation

/-! ## Synchronisations, precedences and checkers -/

theorem Synchronisation.performs_copyPresence {own : List CellId} (i j : IntervalId) :
    Performs own (copyPresence i j) := by
  refine performs_bind (performs_inspect _) fun v => ?_
  split
  · exact performs_update _ _
  · exact performs_update _ _
  · exact performs_pure _

theorem Synchronisation.performs_agree {own : List CellId} (p : Synchronisation) :
    Performs own p.agree :=
  performs_bind (performs_copyPresence _ _) fun _ => performs_copyPresence _ _

theorem Synchronisation.performs_propagate {own : List CellId} (p : Synchronisation)
    {context : Context} (mem : context.activity ∈ own) : Performs own (p.propagate context) := by
  refine performs_bind p.performs_agree fun _ => performs_bind (performs_inspect _) fun source => ?_
  refine performs_ite (performs_setActive mem _) ?_
  refine performs_bind (performs_tighten _ _ _) fun _ => ?_
  refine performs_bind (performs_tighten _ _ _) fun _ => performs_bind (performs_inspect _) fun _ => ?_
  refine performs_bind (performs_tighten _ _ _) fun _ => ?_
  exact performs_bind (performs_tighten _ _ _) fun _ => p.performs_agree

namespace Precedence

variable {own : List CellId}

theorem performs_decideOrder (p : Precedence) : Performs own p.decideOrder :=
  performs_bind (performs_inspect _) fun _ => performs_bind (performs_inspect _) fun _ =>
    performs_ite (performs_ite (performs_assign _ _) (performs_ite (performs_assign _ _)
      (performs_pure _))) (performs_pure _)

theorem performs_enforce (earlier later : IntervalId) : Performs own (enforce earlier later) :=
  performs_bind (performs_inspect _) fun _ => performs_when (performs_tighten _ _ _) fun _ =>
    performs_bind (performs_inspect _) fun _ =>
      performs_ite (performs_tighten _ _ _) (performs_pure _)

theorem performs_enforceOrder (p : Precedence) : Performs own p.enforceOrder :=
  performs_bind (performs_inspect _) fun _ => performs_ite (performs_enforce _ _)
    (performs_bind (performs_inspect _) fun _ =>
      performs_ite (performs_enforce _ _) (performs_pure _))

theorem performs_retire (p : Precedence) {context : Context} (mem : context.activity ∈ own) :
    Performs own (p.retire context) :=
  performs_bind (performs_inspect _) fun _ => performs_ite
    (performs_bind (performs_inspect _) fun _ => performs_ite
      (performs_bind (performs_inspect _) fun _ =>
        performs_ite (performs_setActive mem _) (performs_pure _))
      (performs_pure _))
    (performs_pure _)

theorem performs_isVoid (p : Precedence) : Performs own p.isVoid :=
  performs_bind (performs_inspect _) fun _ => performs_ite (performs_pure _)
    (performs_bind (performs_inspect _) fun _ => performs_pure _)

theorem performs_propagate (p : Precedence) {context : Context} (mem : context.activity ∈ own) :
    Performs own (p.propagate context) :=
  performs_bind p.performs_isVoid fun _ => performs_ite (performs_setActive mem _)
    (performs_bind p.performs_decideOrder fun _ => performs_bind p.performs_enforceOrder fun _ =>
      p.performs_retire mem)

end Precedence

theorem Checker.performs_propagate {own : List CellId} (c : Checker) : Performs own c.propagate :=
  performs_bind (performs_inspect _) fun _ => performs_ite
    (performs_bind (performs_inspect _) fun _ => performs_bind (performs_liftM _) fun _ =>
      performs_ite (performs_throw _) (performs_pure _))
    (performs_pure _)

/-! ## Scripts -/

theorem Action.performs_perform {own : List CellId} {context : Context}
    (mem : context.activity ∈ own) (action : Action) : Performs own (action.perform context) := by
  cases action with
  | readBounds e =>
    exact performs_bind (performs_inspect _) fun _ => performs_bind (performs_inspect _) fun _ =>
      performs_bind (performs_inspect _) fun _ => performs_bind (performs_inspect _) fun _ =>
      performs_pure _
  | readLiteral l =>
    exact performs_bind (performs_inspect _) fun _ => performs_bind (performs_inspect _) fun _ =>
      performs_bind (performs_inspect _) fun _ => performs_pure _
  | readInterval i => exact performs_bind (performs_inspect _) fun _ => performs_pure _
  | readActive =>
    exact performs_bind (performs_bind (performs_readCell _) fun _ => performs_pure _) fun _ =>
      performs_pure _
  | setActive active => exact performs_bind (performs_setActive mem _) fun _ => performs_pure _
  | setBound e side value =>
    exact performs_bind (performs_inspect _) fun _ =>
      performs_bind (performs_setBound _ _ _) fun _ => performs_pure _
  | assign l value => exact performs_bind (performs_assign _ _) fun _ => performs_pure _
  | update i u => exact performs_bind (performs_update _ _) fun _ => performs_pure _
  | fail => exact performs_throw _

theorem Script.reaches_of_perform {own : List CellId} {context : Context}
    (mem : context.activity ∈ own) {actions : List Action} {readings : List Reading} {s s' : Store}
    {r : List Reading × Status}
    (ran : (Script.perform context actions readings).run s = .ok (r, s')) : s.Reaches own s' := by
  induction actions generalizing readings s with
  | nil =>
    cases ran
    exact .refl
  | cons action rest ih =>
    obtain ⟨outcome, next, first, second⟩ := run_bind_eq_ok_iff.1 ran
    have before := Action.performs_perform mem action s outcome next first
    cases outcome with
    | ok more => exact before.trans (ih second)
    | error cause =>
      cases second
      exact before

/-! ## Resources -/

namespace TimeTable

variable {own : List CellId}

theorem performs_restrict (v : Variable) (range : Load) : Performs own (restrict v range) :=
  performs_bind (performs_inspect _) fun _ => performs_bind (performs_inspect _) fun _ =>
    performs_when (performs_throw _) fun _ => performs_when (performs_setBound _ _ _) fun _ =>
    performs_ite (performs_setBound _ _ _) (performs_pure _)

theorem performs_tightenHeight (t : TimeTable) (a : Activity) (others : Load) :
    Performs own (t.tightenHeight a others) :=
  performs_bind (performs_liftM _) fun _ => performs_restrict _ _

theorem performs_force (t : TimeTable) (a : Activity) (start stop : Int) (others : Load) :
    Performs own (t.force a start stop others) :=
  performs_bind (performs_say _) fun _ => performs_bind (performs_update _ _) fun _ =>
    performs_bind (performs_tighten _ _ _) fun _ => performs_bind (performs_tighten _ _ _) fun _ =>
    t.performs_tightenHeight _ _

theorem performs_coverFrom (t : TimeTable) (a : Captured) (rules : Rules) (left segment : Nat) :
    Performs own (t.coverFrom a rules left segment) := by
  induction left generalizing segment with
  | zero => exact performs_pure _
  | succ left ih =>
    refine performs_bind (performs_liftM _) fun span => performs_ite (performs_pure _) ?_
    refine performs_bind (performs_liftM _) fun point => ?_
    refine performs_bind (performs_liftM _) fun others => ?_
    split
    · exact performs_when (t.performs_tightenHeight _ _) fun _ => ih _
    · exact performs_when (t.performs_force _ _ _ _) fun _ => ih _

theorem performs_fit (t : TimeTable) (a : Captured) : Performs own (t.fit a) := by
  refine performs_bind (performs_inspect _) fun v => performs_bind (performs_inspect _) fun _ =>
    performs_bind (performs_inspect _) fun _ => performs_ite (performs_pure _) ?_
  refine performs_bind (performs_liftM _) fun f => ?_
  cases f.heights with
  | none =>
    exact performs_ite (performs_bind (performs_say _) fun _ =>
      performs_bind (performs_tighten _ _ _) fun _ => performs_pure _) (performs_pure _)
  | some heights =>
    exact performs_ite (performs_bind (performs_say _) fun _ =>
      performs_bind (performs_tighten _ _ _) fun _ => performs_restrict _ _) (performs_restrict _ _)

theorem performs_place (t : TimeTable) (a : Captured) : Performs own (t.place a) :=
  performs_bind (performs_liftM _) fun _ => performs_when (performs_tighten _ _ _) fun _ =>
    performs_bind (performs_liftM _) fun _ =>
      performs_ite (performs_tighten _ _ _) (performs_pure _)

/-- The rules write no cells. -/
theorem performs_filter (t : TimeTable) (rules : Rules) (a : Captured) :
    Performs own (t.filter rules a) := by
  refine performs_ite (performs_pure _) (performs_bind (t.performs_place a) fun _ => ?_)
  refine performs_bind (performs_inspect _) fun v => performs_ite (performs_say _) ?_
  refine performs_when (t.performs_coverFrom _ _ _ _) fun _ => ?_
  exact performs_ite (performs_bind (performs_inspect _) fun _ =>
    performs_ite (t.performs_fit _) (performs_pure _)) (performs_pure _)

end TimeTable

/-- A removal writes the number of elements. -/
theorem SparseSet.assigned_of_removeAt {q q' : SparseSet} {position : Nat} {c c' : Cells}
    (h : q.removeAt position c = .ok (q', c')) :
    q'.size = q.size ∧ ∃ value, c.assign q.size value = .ok c' := by
  obtain ⟨size, -, h⟩ := bind_eq_ok_iff.1 h
  split at h
  · cases h
  · obtain ⟨swapped, swap, h⟩ := bind_eq_ok_iff.1 h
    obtain ⟨cells, assigned, h⟩ := bind_eq_ok_iff.1 h
    cases h
    have same : q'.size = q.size := by
      obtain ⟨a, -, swap⟩ := bind_eq_ok_iff.1 swap
      obtain ⟨b, -, swap⟩ := bind_eq_ok_iff.1 swap
      cases swap
      rfl
    exact ⟨same, _, same ▸ assigned⟩

/-- The steps of a walk are writes to the number of elements. -/
theorem SparseSet.reaches_of_sweep (own : List CellId) {done : Nat → Except Fault Bool}
    {position : Nat} {q q' : SparseSet} {s : Store} {c : Cells} (mem : q.size ∈ own)
    (ran : sweep done position q s.cells = .ok (q', c)) :
    q'.size = q.size ∧ s.Reaches own { s with cells := c } := by
  induction position generalizing q s with
  | zero =>
    cases ran
    exact ⟨rfl, .refl⟩
  | succ position ih =>
    obtain ⟨element, -, ran⟩ := bind_eq_ok_iff.1 ran
    obtain ⟨isDone, -, ran⟩ := bind_eq_ok_iff.1 ran
    cases isDone with
    | false => exact ih mem ran
    | true =>
      obtain ⟨⟨q₁, c₁⟩, removed, ran⟩ := bind_eq_ok_iff.1 ran
      obtain ⟨same, value, assigned⟩ := assigned_of_removeAt removed
      obtain ⟨same', rest⟩ := ih (s := { s with cells := c₁ }) (by rw [same]; exact mem) ran
      exact ⟨same'.trans same, .head (.assign mem assigned) rest⟩

namespace Resource

/-- The cells of the number of active activities and of the stored span. -/
def cells (r : Resource) : List CellId := [r.active.size, r.spanStart, r.spanStop]

/-- What a walk over the active activities leaves. -/
theorem dropDone_spec {span : Span} {position : Nat} {r r' : Resource} {s s' : Store}
    (ran : (dropDone span position r).run s = .ok (r', s')) :
    ∃ active cells, SparseSet.sweep (fun index => do
        isDone s.domains span (← r.activities.read index)) position r.active s.cells =
          .ok (active, cells) ∧ r' = { r with active } ∧ s' = { s with cells } := by
  rw [dropDone_eq_sweep] at ran
  cases swept : SparseSet.sweep (fun index => do
      isDone s.domains span (← r.activities.read index)) position r.active s.cells with
  | error cause =>
    rw [swept] at ran
    cases ran
  | ok result =>
    simp only [swept, Except.map, Except.ok.injEq, Prod.mk.injEq] at ran
    exact ⟨result.1, result.2, rfl, ran.1.symm, ran.2.symm⟩

theorem performs_filter (r : Resource) {own : List CellId} {context : Context}
    (active : context.activity ∈ own) (start : r.spanStart ∈ own) (stop : r.spanStop ∈ own)
    (captured : List Captured) : Performs own (r.filter context captured) := by
  refine performs_bind (performs_liftM _) fun profile => performs_when (performs_throw _) fun _ => ?_
  refine performs_ite (performs_setActive active _) ?_
  refine performs_bind (performs_forM _ fun a => TimeTable.performs_filter _ _ a) fun _ => ?_
  exact performs_bind (performs_writeCell start _) fun _ => performs_writeCell stop _

theorem performs_capture {own : List CellId} (r : Resource) : Performs own r.capture := by
  refine performs_bind performs_get fun s => performs_bind (performs_liftM _) fun members => ?_
  refine performs_mapM members fun index => performs_bind (performs_liftM _) fun a => ?_
  exact performs_bind (performs_inspect _) fun _ => performs_pure _

theorem performs_propagate (r : Resource) {own : List CellId} {context : Context}
    (active : context.activity ∈ own) (start : r.spanStart ∈ own) (stop : r.spanStop ∈ own) :
    Performs own (r.propagate context) := by
  refine performs_bind r.performs_capture fun captured => ?_
  refine performs_ite (performs_setActive active _) (performs_ite ?_ ?_)
  · exact performs_bind (performs_say _) fun _ => performs_setActive active _
  · exact r.performs_filter active start stop captured

/-- The parts of a run: the walk and the propagation. -/
theorem run_spec {context : Context} {r r' : Resource} {status : Status} {s s' : Store}
    (ran : (run context r).run s = .ok ((r', status), s')) :
    ∃ start stop n t, s.cells.read r.spanStart = .ok start ∧ s.cells.read r.spanStop = .ok stop ∧
      r.active.length s.cells = .ok n ∧ (dropDone ⟨start, stop⟩ n r).run s = .ok (r', t) ∧
      (r'.propagate context).exec t = .ok (status, s') := by
  obtain ⟨t₀, t₁, got, ran⟩ := run_bind_eq_ok_iff.1 ran
  cases got
  obtain ⟨start, t₁, readStart, ran⟩ := run_bind_eq_ok_iff.1 ran
  obtain ⟨stop, t₂, readStop, ran⟩ := run_bind_eq_ok_iff.1 ran
  obtain ⟨n, t₃, counted, ran⟩ := run_bind_eq_ok_iff.1 ran
  obtain ⟨left, t, dropped, ran⟩ := run_bind_eq_ok_iff.1 ran
  obtain ⟨outcome, t', propagated, ran⟩ := run_bind_eq_ok_iff.1 ran
  cases ran
  obtain ⟨readStart, rfl⟩ := run_liftM_eq_ok_iff.1 readStart
  obtain ⟨readStop, rfl⟩ := run_liftM_eq_ok_iff.1 readStop
  obtain ⟨counted, rfl⟩ := run_liftM_eq_ok_iff.1 counted
  exact ⟨start, stop, n, t, readStart, readStop, counted, dropped, propagated⟩

theorem reaches_of_run {context : Context} {r r' : Resource} {status : Status} {s s' : Store}
    (ran : (run context r).run s = .ok ((r', status), s')) :
    r'.cells = r.cells ∧ s.Reaches (context.activity :: r.cells) s' := by
  obtain ⟨start, stop, n, t, -, -, -, dropped, propagated⟩ := run_spec ran
  obtain ⟨active, cells, swept, rfl, rfl⟩ := dropDone_spec dropped
  obtain ⟨same, walk⟩ := SparseSet.reaches_of_sweep
    (context.activity :: r.cells) (by simp [Resource.cells]) swept
  refine ⟨by simp [Resource.cells, same], walk.trans (performs_propagate _ ?_ ?_ ?_ _ _ _
    propagated)⟩ <;> simp [Resource.cells]

end Resource

/-! ## Machines -/

namespace Machine

/-- The cell of the number of active intervals. -/
def cells (m : Machine) : List CellId := [m.active.size]

/-- What a walk over the active intervals leaves. -/
theorem dropAbsent_spec {position : Nat} {m m' : Machine} {s s' : Store}
    (ran : (dropAbsent position m).run s = .ok (m', s')) :
    ∃ active cells, SparseSet.sweep (fun index => do
        return (← s.domains.interval (← m.intervals.read index)).isAbsent) position m.active
          s.cells = .ok (active, cells) ∧ m' = { m with active } ∧ s' = { s with cells } := by
  rw [dropAbsent_eq_sweep] at ran
  cases swept : SparseSet.sweep (fun index => do
      return (← s.domains.interval (← m.intervals.read index)).isAbsent) position m.active
        s.cells with
  | error cause =>
    rw [swept] at ran
    cases ran
  | ok result =>
    simp only [swept, Except.map, Except.ok.injEq, Prod.mk.injEq] at ran
    exact ⟨result.1, result.2, rfl, ran.1.symm, ran.2.symm⟩

theorem performs_apply {own : List CellId} (d : Direction) (task : MachineTask)
    (startMin endMax : Int) : Performs own (apply d task startMin endMax) := by
  have raise : Performs own (d.raiseStart task.interval startMin) := by
    cases d <;> exact performs_tighten _ _ _
  have lower : Performs own (d.lowerEnd task.interval endMax) := by
    cases d <;> exact performs_tighten _ _ _
  refine performs_bind (performs_inspect _) fun v => performs_ite ?_ ?_
  · exact performs_bind (performs_say _) fun _ => performs_update _ _
  · exact performs_when raise fun _ => performs_ite lower (performs_pure _)

theorem performs_tasks {own : List CellId} (m : Machine) (d : Direction) :
    Performs own (m.tasks d) := by
  refine performs_bind performs_get fun s => performs_bind (performs_liftM _) fun members => ?_
  refine performs_filterMapM members fun index => performs_bind (performs_liftM _) fun i => ?_
  exact performs_bind (performs_inspect _) fun _ => performs_pure _

theorem performs_filterOn {own : List CellId} (m : Machine) (d : Direction) :
    Performs own (m.filterOn d) := by
  refine performs_bind (m.performs_tasks d) fun tasks => ?_
  refine performs_bind (performs_liftM _) fun found => ?_
  obtain ⟨verdict, filtered⟩ := found
  cases verdict with
  | unchanged => exact performs_pure _
  | infeasible => exact performs_throw _
  | changed => exact performs_forM _ fun k => performs_apply _ _ _ _

theorem performs_propagate {own : List CellId} (m : Machine) {context : Context}
    (mem : context.activity ∈ own) : Performs own (m.propagate context) := by
  refine performs_bind performs_get fun s => performs_bind (performs_liftM _) fun n => ?_
  exact performs_ite (performs_setActive mem _)
    (performs_bind (m.performs_filterOn _) fun _ => m.performs_filterOn _)

/-- The parts of a run: the walk and the propagation. -/
theorem run_spec {context : Context} {m m' : Machine} {status : Status} {s s' : Store}
    (ran : (run context m).run s = .ok ((m', status), s')) :
    ∃ n t, m.active.length s.cells = .ok n ∧ (dropAbsent n m).run s = .ok (m', t) ∧
      (m'.propagate context).exec t = .ok (status, s') := by
  obtain ⟨t₀, t₁, got, ran⟩ := run_bind_eq_ok_iff.1 ran
  cases got
  obtain ⟨n, t₁, counted, ran⟩ := run_bind_eq_ok_iff.1 ran
  obtain ⟨left, t, dropped, ran⟩ := run_bind_eq_ok_iff.1 ran
  obtain ⟨outcome, t', propagated, ran⟩ := run_bind_eq_ok_iff.1 ran
  cases ran
  obtain ⟨counted, rfl⟩ := run_liftM_eq_ok_iff.1 counted
  exact ⟨n, t, counted, dropped, propagated⟩

theorem reaches_of_run {context : Context} {m m' : Machine} {status : Status} {s s' : Store}
    (ran : (run context m).run s = .ok ((m', status), s')) :
    m'.cells = m.cells ∧ s.Reaches (context.activity :: m.cells) s' := by
  obtain ⟨n, t, -, dropped, propagated⟩ := run_spec ran
  obtain ⟨active, cells, swept, rfl, rfl⟩ := dropAbsent_spec dropped
  obtain ⟨same, walk⟩ := SparseSet.reaches_of_sweep
    (context.activity :: m.cells) (by simp [Machine.cells]) swept
  exact ⟨by simp [Machine.cells, same],
    walk.trans (performs_propagate _ (by simp) _ _ _ propagated)⟩

end Machine

/-! ## All kinds -/

namespace Rule

/-- The cells of the propagator, but for that of its activity. -/
def cells : Rule → List CellId
  | machine m => m.cells
  | resource r => r.cells
  | _ => []

/-- A run as one of a rule is a run as one of its kind. -/
theorem lift_spec {P : Type} [Propagator P] {wrap : P → Rule} {context : Context} {p : P}
    {q : Rule} {status : Status} {s s' : Store}
    (ran : (lift wrap context p).run s = .ok ((q, status), s')) :
    ∃ p', q = wrap p' ∧ (Propagator.run context p).run s = .ok ((p', status), s') := by
  obtain ⟨⟨p', status'⟩, t, ran, last⟩ := run_bind_eq_ok_iff.1 ran
  cases last
  exact ⟨p', rfl, ran⟩

theorem lift_of_run {P : Type} [Propagator P] {wrap : P → Rule} {context : Context} {p p' : P}
    {status : Status} {s s' : Store}
    (ran : (Propagator.run context p).run s = .ok ((p', status), s')) :
    (lift wrap context p).run s = .ok ((wrap p', status), s') :=
  run_bind_of_run ran

theorem lift_of_fault {P : Type} [Propagator P] {wrap : P → Rule} {context : Context} {p : P}
    {fault : Fault} {s : Store} (failed : (Propagator.run context p).run s = .error fault) :
    (lift wrap context p).run s = .error fault := by
  rw [lift, StateT.run_bind, failed]
  rfl

/-- A propagator without data that change is its propagation. -/
theorem plain_spec {P : Type} {p p' : P} {x : Propagation Unit} {status : Status} {s s' : Store}
    (ran : (do return (p, ← x.run) : StateT Store (Except Fault) (P × Status)).run s =
      .ok ((p', status), s')) : p' = p ∧ x.exec s = .ok (status, s') := by
  obtain ⟨outcome, t, ran, last⟩ := run_bind_eq_ok_iff.1 ran
  cases last
  exact ⟨rfl, ran⟩

/-- A run consists of steps of the context that write no cells but those of the propagator, which are
the same afterwards. -/
theorem reaches_of_run {context : Context} {q q' : Rule} {status : Status} {s s' : Store}
    (ran : (Propagator.run context q).run s = .ok ((q', status), s')) :
    q'.cells = q.cells ∧ s.Reaches (context.activity :: q.cells) s' := by
  cases q with
  | synchronisation p =>
    obtain ⟨p', rfl, lifted⟩ := lift_spec ran
    obtain ⟨rfl, propagated⟩ := plain_spec (x := p.propagate context) lifted
    exact ⟨rfl, p'.performs_propagate (by simp) _ _ _ propagated⟩
  | precedence p =>
    obtain ⟨p', rfl, lifted⟩ := lift_spec ran
    obtain ⟨rfl, propagated⟩ := plain_spec (x := p.propagate context) lifted
    exact ⟨rfl, p'.performs_propagate (by simp) _ _ _ propagated⟩
  | machine p =>
    obtain ⟨p', rfl, lifted⟩ := lift_spec ran
    exact Machine.reaches_of_run lifted
  | resource p =>
    obtain ⟨p', rfl, lifted⟩ := lift_spec ran
    exact Resource.reaches_of_run lifted
  | checker p =>
    obtain ⟨p', rfl, lifted⟩ := lift_spec ran
    obtain ⟨rfl, propagated⟩ := plain_spec (x := p.propagate) lifted
    exact ⟨rfl, p'.performs_propagate _ _ _ propagated⟩
  | script p =>
    obtain ⟨p', rfl, lifted⟩ := lift_spec ran
    have ran : (Script.run context p).run s = .ok ((p', status), s') := lifted
    obtain ⟨⟨readings, outcome⟩, t, performed, lifted⟩ := run_bind_eq_ok_iff.1 ran
    obtain ⟨_, t', noted, lifted⟩ := run_bind_eq_ok_iff.1 lifted
    cases noted
    cases lifted
    have mem : context.activity ∈ context.activity :: (script p).cells := List.mem_cons_self
    exact ⟨rfl, (Script.reaches_of_perform mem performed).tail (.note _)⟩

/-- A run makes the domains evolve and writes no cells but those of the propagator. -/
theorem evolves_of_run {context : Context} {q q' : Rule} {status : Status} {s s' : Store}
    (wellFormed : s.domains.WellFormed)
    (ran : (Propagator.run context q).run s = .ok ((q', status), s')) :
    q'.cells = q.cells ∧ s.Evolves (context.activity :: q.cells) s' :=
  (reaches_of_run ran).imp id fun reaches => reaches.evolves wellFormed

end Rule

end Scheduling
