import Scheduling.Proofs.Scope

/-!
# What a propagator cannot touch

A propagator writes the domains of the variables that it is about, whether it succeeds or fails. An
interval that it is not about has the same domain before and after every run.

Results:
* `Rule.Touches`: the intervals that a propagator is about.
* `Propagation.Confined`: a computation leaves the domain of an interval alone.
* `Decision.interval_eq_of_write`: a decision about something else leaves an interval alone.
* `Rule.interval_eq_of_run`: so does a run of a propagator that does not touch it.
* `Rule.touches_iff_of_run`: which intervals a propagator touches does not change.
-/

namespace Scheduling

open Propagation

/-- The propagator is about the interval; a script is if one of its actions updates it. -/
def Rule.Touches (q : Rule) (i : IntervalId) : Prop :=
  match q with
  | script s => ∃ actions ∈ s.lists, ∃ u, Action.update i u ∈ actions
  | q => .interval i ∈ q.scope

/-! ## Confined computations -/

namespace Propagation

variable {α β : Type} {i : IntervalId} {x : Propagation α} {Q : α → Prop}

/-- Whatever the outcome, the interval has the domain that it had, and what is returned has the
property. -/
def Confined (i : IntervalId) (x : Propagation α) (Q : α → Prop) : Prop :=
  ∀ s r s', x.exec s = .ok (r, s') →
    s'.domains.interval i = s.domains.interval i ∧ ∀ a, r = .ok a → Q a

theorem Local.confined {own : List CellId} {scope : List Watched} (h : Local own scope x)
    (out : .interval i ∉ scope) : Confined i x fun _ => True :=
  fun s r s' ran => ⟨(h.frame s r s' ran).interval i out, fun _ _ => trivial⟩

theorem confined_pure {a : α} (q : Q a) : Confined i (pure a) Q := by
  intro s r s' ran
  cases ran
  exact ⟨rfl, fun b same => by cases same; exact q⟩

theorem confined_throw (cause : Inconsistency) : Confined i (throw cause : Propagation α) Q := by
  intro s r s' ran
  cases ran
  exact ⟨rfl, fun b same => by cases same⟩

theorem confined_bind {f : α → Propagation β} {R : β → Prop} (h : Confined i x Q)
    (h' : ∀ a, Q a → Confined i (f a) R) : Confined i (x >>= f) R := by
  intro s r s'' ran
  rcases exec_bind_eq_ok_iff.1 ran with ⟨a, s', first, second⟩ | ⟨cause, failed, rfl⟩
  · obtain ⟨same, q⟩ := h s _ s' first
    obtain ⟨same', result⟩ := h' a (q a rfl) s' r s'' second
    exact ⟨same'.trans same, result⟩
  · exact ⟨(h s _ s'' failed).1, fun b same => by cases same⟩

theorem confined_ite {c : Prop} [Decidable c] {y : Propagation α} (h : Confined i x Q)
    (h' : Confined i y Q) : Confined i (if c then x else y) Q := by
  split
  · exact h
  · exact h'

/-- A step that is taken on a condition, with what follows it. -/
theorem confined_when {c : Prop} [Decidable c] {x : Propagation Unit} {f : Unit → Propagation β}
    {R : β → Prop} (h : Confined i x fun _ => True) (h' : ∀ a, Confined i (f a) R) :
    Confined i (if c then x >>= f else f ()) R := by
  split
  · exact confined_bind h fun a _ => h' a
  · exact h' ()

theorem confined_get : Confined i (get : Propagation Store) fun _ => True := by
  intro s r s' ran
  cases ran
  exact ⟨rfl, fun _ _ => trivial⟩

theorem confined_liftM (x : Except Fault α) :
    Confined i (liftM x : Propagation α) fun a => x = .ok a := by
  intro s r s' ran
  obtain ⟨b, known, rfl, rfl⟩ := exec_liftM_eq_ok_iff.1 ran
  exact ⟨rfl, fun a same => by cases same; exact known⟩

theorem confined_inspect (read : Domains → Except Fault α) :
    Confined i (inspect read) fun _ => True := by
  intro s r s' ran
  obtain ⟨b, -, rfl, rfl⟩ := exec_inspect_eq_ok_iff.1 ran
  exact ⟨rfl, fun _ _ => trivial⟩

theorem confined_isActive (context : Context) :
    Confined i (isActive context) fun _ => True := by
  have read : Confined i (readCell context.activity) fun _ => True :=
    confined_bind confined_get fun s _ s' r s'' ran =>
      ⟨(confined_liftM _ s' r s'' ran).1, fun _ _ => trivial⟩
  exact confined_bind read fun _ _ => confined_pure trivial

theorem confined_writeCell (cell : CellId) (value : Int) :
    Confined i (writeCell cell value) fun _ => True := by
  intro s r s' ran
  obtain ⟨-, unchanged, -⟩ := writeCell_spec ran
  exact ⟨by rw [unchanged], fun _ _ => trivial⟩

theorem confined_forM {l : List α} {f : α → Propagation PUnit}
    (h : ∀ a ∈ l, Confined i (f a) fun _ => True) : Confined i (l.forM f) fun _ => True := by
  induction l with
  | nil => exact confined_pure trivial
  | cons a l ih =>
    exact confined_bind (h a List.mem_cons_self) fun _ _ =>
      ih fun b mem => h b (List.mem_cons_of_mem _ mem)

theorem confined_mapM {l : List α} {f : α → Propagation β} {R : β → Prop}
    (h : ∀ a, Confined i (f a) R) : Confined i (l.mapM f) fun results => ∀ b ∈ results, R b := by
  induction l with
  | nil => exact confined_pure (by simp)
  | cons a l ih =>
    rw [List.mapM_cons]
    refine confined_bind (h a) fun b first => confined_bind ih fun rest others => ?_
    refine confined_pure fun c mem => ?_
    rcases List.mem_cons.1 mem with rfl | mem
    · exact first
    · exact others c mem

theorem confined_filterMapM {l : List α} {f : α → Propagation (Option β)} {R : β → Prop}
    (h : ∀ a, Confined i (f a) fun found => ∀ b, found = some b → R b) :
    Confined i (l.filterMapM f) fun results => ∀ b ∈ results, R b := by
  induction l with
  | nil => exact confined_pure (by simp)
  | cons a l ih =>
    rw [List.filterMapM_cons]
    refine confined_bind (h a) fun found first => ?_
    cases found with
    | none => exact ih
    | some b =>
      refine confined_bind ih fun rest others => confined_pure fun c mem => ?_
      rcases List.mem_cons.1 mem with rfl | mem
      · exact first c rfl
      · exact others c mem

end Propagation

/-! ## Machines and resources -/

theorem Table.mem_toList_of_read {α : Type} {t : Table α} {key : Nat} {row : α}
    (h : t.read key = .ok row) : row ∈ t.toList := by
  have here := Table.read_eq_ok_iff.1 h
  rw [Table.get?, ← Array.getElem?_toList] at here
  exact List.mem_of_getElem? here

namespace Machine

variable {i : IntervalId}

/-- Every task is that of an interval of the machine. -/
theorem confined_tasks (m : Machine) (d : Direction) :
    Confined i (m.tasks d) fun tasks => ∀ t ∈ tasks, t.interval ∈ m.intervals.toList := by
  refine confined_bind confined_get fun s _ => confined_bind (confined_liftM _) fun members _ => ?_
  refine confined_filterMapM fun index => confined_bind (confined_liftM _) fun j read => ?_
  refine confined_bind (confined_inspect _) fun v _ => confined_pure fun t known => ?_
  have own : t.interval = j := by
    unfold task? at known
    split at known <;> cases known
    rfl
  exact own ▸ Table.mem_toList_of_read read

theorem confined_filterOn {m : Machine} (out : i ∉ m.intervals.toList) (d : Direction) :
    Confined i (m.filterOn d) fun _ => True := by
  refine confined_bind (m.confined_tasks d) fun tasks mem => ?_
  refine confined_bind (confined_liftM _) fun found _ => ?_
  obtain ⟨verdict, filtered⟩ := found
  cases verdict with
  | unchanged => exact confined_pure trivial
  | infeasible => exact confined_throw _
  | changed =>
    refine confined_forM fun k _ => (local_apply d (List.mem_singleton.2 rfl) _ _).confined ?_
    intro same
    cases List.mem_singleton.1 same
    exact out (mem _ (List.getElem_mem _))

theorem confined_propagate {m : Machine} (out : i ∉ m.intervals.toList) (context : Context) :
    Confined i (m.propagate context) fun _ => True := by
  refine confined_bind confined_get fun s _ => confined_bind (confined_liftM _) fun n _ => ?_
  exact confined_ite (confined_writeCell _ _)
    (confined_bind (confined_filterOn out _) fun _ _ => confined_filterOn out _)

end Machine

namespace Resource

variable {i : IntervalId}

/-- Whatever is captured is an activity of the resource. -/
theorem confined_capture (r : Resource) :
    Confined i r.capture fun captured => ∀ c ∈ captured, c.activity ∈ r.activities.toList := by
  refine confined_bind confined_get fun s _ => confined_bind (confined_liftM _) fun members _ => ?_
  refine confined_mapM fun index => confined_bind (confined_liftM _) fun a read => ?_
  exact confined_bind (confined_inspect _) fun b _ =>
    confined_pure (Table.mem_toList_of_read read)

theorem confined_filter {r : Resource} (out : ∀ a ∈ r.activities.toList, .interval i ∉ a.scope)
    (context : Context) {captured : List Captured}
    (mem : ∀ c ∈ captured, c.activity ∈ r.activities.toList) :
    Confined i (r.filter context captured) fun _ => True := by
  refine confined_bind (confined_liftM _) fun profile _ =>
    confined_when (confined_throw _) fun _ => ?_
  refine confined_ite (confined_writeCell _ _) (confined_bind (confined_forM fun c moving => ?_) ?_)
  · exact (TimeTable.local_filter _ (List.Subset.refl _) _).confined
      (out _ (mem c (List.mem_filter.1 moving).1))
  · exact fun _ _ => confined_bind (confined_writeCell _ _) fun _ _ => confined_writeCell _ _

theorem confined_propagate {r : Resource} (out : ∀ a ∈ r.activities.toList, .interval i ∉ a.scope)
    (context : Context) : Confined i (r.propagate context) fun _ => True := by
  refine confined_bind r.confined_capture fun captured mem => ?_
  refine confined_ite (confined_writeCell _ _) (confined_ite ?_ (confined_filter out context mem))
  have silent : Local [] [] (say .capacitySafe) := local_say _
  exact confined_bind (silent.confined (by simp)) fun _ _ => confined_writeCell _ _

end Resource

/-! ## Scripts -/

theorem Action.confined_perform {i : IntervalId} {context : Context} {action : Action}
    (out : ∀ u, action ≠ .update i u) : Confined i (action.perform context) fun _ => True := by
  have made (e : Expression) : Confined i (make e) fun _ => True := confined_inspect _
  have silent {x : Propagation Unit} (h : Confined i x fun _ => True) :
      Confined i (do x; return ([] : List Reading)) fun _ => True :=
    confined_bind h fun _ _ => confined_pure trivial
  cases action with
  | readBounds e =>
    exact confined_bind (made e) fun _ _ => confined_bind (confined_inspect _) fun _ _ =>
      confined_bind (confined_inspect _) fun _ _ => confined_bind (confined_inspect _) fun _ _ =>
      confined_pure trivial
  | readLiteral l =>
    exact confined_bind (confined_inspect _) fun _ _ =>
      confined_bind (confined_inspect _) fun _ _ =>
      confined_bind (confined_inspect _) fun _ _ => confined_pure trivial
  | readInterval j => exact confined_bind (confined_inspect _) fun _ _ => confined_pure trivial
  | readActive =>
    exact confined_bind (confined_isActive context) fun _ _ => confined_pure trivial
  | setActive active => exact silent (confined_writeCell _ _)
  | setBound e side value =>
    refine confined_bind (made e) fun v _ => silent ?_
    have near : Local [] [.integer v.base] (Propagation.setBound v side value) :=
      local_setBound (List.mem_singleton.2 rfl) side value
    exact near.confined (by simp)
  | assign l value =>
    refine silent ?_
    have near : Local [] [.integer l.domain] (Propagation.assign l value) :=
      local_assign (List.mem_singleton.2 rfl) value
    exact near.confined (by simp)
  | update j u =>
    refine silent ?_
    have near : Local [] [.interval j] (Propagation.update j u) :=
      local_update (List.mem_singleton.2 rfl) u
    refine near.confined fun same => ?_
    cases List.mem_singleton.1 same
    exact out u rfl
  | fail => exact confined_throw _

/-- The actions of a run are among those of the script. -/
theorem Script.exists_mem_of_mem_actions {s : Script} {action : Action} (mem : action ∈ s.actions) :
    ∃ actions ∈ s.lists, action ∈ actions := by
  unfold Script.actions at mem
  cases next : s.lists[s.runs]? with
  | some actions =>
    rw [next] at mem
    exact ⟨actions, List.mem_of_getElem? next, mem⟩
  | none =>
    rw [next] at mem
    cases last : s.lists.getLast? with
    | none => simp [last] at mem
    | some actions => exact ⟨actions, List.mem_of_getLast? last, by simpa [last] using mem⟩

theorem Script.interval_eq_of_perform {i : IntervalId} {context : Context} {actions : List Action}
    (out : ∀ u, .update i u ∉ actions) {readings : List Reading} {s s' : Store}
    {r : List Reading × Status}
    (ran : (Script.perform context actions readings).run s = .ok (r, s')) :
    s'.domains.interval i = s.domains.interval i := by
  induction actions generalizing readings s with
  | nil =>
    cases ran
    rfl
  | cons action rest ih =>
    obtain ⟨outcome, t, first, second⟩ := run_bind_eq_ok_iff.1 ran
    have same := (Action.confined_perform
      (fun u eq => out u (eq ▸ List.mem_cons_self)) s outcome t first).1
    cases outcome with
    | ok more => exact (ih (fun u mem => out u (List.mem_cons_of_mem _ mem)) second).trans same
    | error cause =>
      cases second
      exact same

/-! ## Decisions -/

/-- A decision about something else leaves the interval alone. -/
theorem Decision.interval_eq_of_write {d : Decision} {i : IntervalId} {domains domains' : Domains}
    (wrote : d.write domains = .ok (some domains')) (other : ∀ u, d ≠ .update i u) :
    domains'.interval i = domains.interval i := by
  cases d with
  | setBound v side value =>
    exact (Domains.agreesOutside_of_setBound (List.mem_singleton.2 rfl) wrote).interval i (by simp)
  | assign l value =>
    cases value <;>
      exact (Domains.agreesOutside_of_setBound (v := .literal l) (List.mem_singleton.2 rfl)
        wrote).interval i (by simp)
  | update j u =>
    refine (Domains.agreesOutside_of_update (List.mem_singleton.2 rfl) wrote).interval i
      fun mem => ?_
    cases List.mem_singleton.1 mem
    exact other u rfl

/-! ## All kinds -/

namespace Rule

variable {context : Context} {q q' : Rule} {status : Status} {s s' : Store} {i : IntervalId}

/-- A run leaves an interval alone that the propagator does not touch. -/
theorem interval_eq_of_run (ran : (Propagator.run context q).run s = .ok ((q', status), s'))
    (out : ¬ q.Touches i) : s'.domains.interval i = s.domains.interval i := by
  have own : context.activity ∈ [context.activity] := List.mem_singleton.2 rfl
  cases q with
  | synchronisation p =>
    obtain ⟨p', rfl, lifted⟩ := lift_spec ran
    obtain ⟨rfl, propagated⟩ := plain_spec (x := p.propagate context) lifted
    exact ((p'.local_propagate own).confined out _ _ _ propagated).1
  | precedence p =>
    obtain ⟨p', rfl, lifted⟩ := lift_spec ran
    obtain ⟨rfl, propagated⟩ := plain_spec (x := p.propagate context) lifted
    exact ((p'.local_propagate own).confined out _ _ _ propagated).1
  | machine m =>
    obtain ⟨m', rfl, lifted⟩ := lift_spec ran
    obtain ⟨n, t, -, dropped, propagated⟩ := Machine.run_spec lifted
    obtain ⟨active, cells, -, rfl, rfl⟩ := Machine.dropAbsent_spec dropped
    have out : i ∉ m.intervals.toList := fun mem => out (List.mem_map_of_mem mem)
    exact (Machine.confined_propagate (m := { m with active }) out context _ _ _ propagated).1
  | resource r =>
    obtain ⟨r', rfl, lifted⟩ := lift_spec ran
    obtain ⟨start, stop, n, t, -, -, -, dropped, propagated⟩ := Resource.run_spec lifted
    obtain ⟨active, cells, -, rfl, rfl⟩ := Resource.dropDone_spec dropped
    have out : ∀ a ∈ r.activities.toList, .interval i ∉ a.scope := fun a mem inside =>
      out (List.mem_flatMap.2 ⟨a, mem, inside⟩)
    exact (Resource.confined_propagate (r := { r with active }) out context _ _ _ propagated).1
  | checker c =>
    obtain ⟨c', rfl, lifted⟩ := lift_spec ran
    obtain ⟨rfl, propagated⟩ := plain_spec (x := c.propagate) lifted
    have near : Local [] (Rule.checker c').scope c'.propagate := c'.local_propagate
    exact (near.confined out _ _ _ propagated).1
  | script p =>
    obtain ⟨p', rfl, lifted⟩ := lift_spec ran
    have ran : (Script.run context p).run s = .ok ((p', status), s') := lifted
    obtain ⟨⟨readings, outcome⟩, t, performed, lifted⟩ := run_bind_eq_ok_iff.1 ran
    obtain ⟨_, t', noted, lifted⟩ := run_bind_eq_ok_iff.1 lifted
    cases noted
    cases lifted
    show t.domains.interval i = s.domains.interval i
    refine Script.interval_eq_of_perform (fun u mem => ?_) performed
    obtain ⟨actions, listed, mem⟩ := p.exists_mem_of_mem_actions mem
    exact out ⟨actions, listed, u, mem⟩

/-- A run does not change what the propagator touches. -/
theorem touches_iff_of_run (ran : (Propagator.run context q).run s = .ok ((q', status), s')) :
    q'.Touches i ↔ q.Touches i := by
  cases q with
  | machine m =>
    obtain ⟨m', rfl, lifted⟩ := lift_spec ran
    obtain ⟨n, t, -, dropped, -⟩ := Machine.run_spec lifted
    obtain ⟨active, cells, -, rfl, -⟩ := Machine.dropAbsent_spec dropped
    exact .rfl
  | resource r =>
    obtain ⟨r', rfl, lifted⟩ := lift_spec ran
    obtain ⟨start, stop, n, t, -, -, -, dropped, -⟩ := Resource.run_spec lifted
    obtain ⟨active, cells, -, rfl, -⟩ := Resource.dropDone_spec dropped
    exact .rfl
  | script p =>
    obtain ⟨p', rfl, lifted⟩ := lift_spec ran
    have ran : (Script.run context p).run s = .ok ((p', status), s') := lifted
    obtain ⟨⟨readings, outcome⟩, t, -, lifted⟩ := run_bind_eq_ok_iff.1 ran
    obtain ⟨_, t', -, lifted⟩ := run_bind_eq_ok_iff.1 lifted
    cases lifted
    exact .rfl
  | synchronisation p =>
    obtain ⟨p', rfl, lifted⟩ := lift_spec ran
    obtain ⟨rfl, -⟩ := plain_spec (x := p.propagate context) lifted
    exact .rfl
  | precedence p =>
    obtain ⟨p', rfl, lifted⟩ := lift_spec ran
    obtain ⟨rfl, -⟩ := plain_spec (x := p.propagate context) lifted
    exact .rfl
  | checker c =>
    obtain ⟨c', rfl, lifted⟩ := lift_spec ran
    obtain ⟨rfl, -⟩ := plain_spec (x := c.propagate) lifted
    exact .rfl

end Rule

end Scheduling
