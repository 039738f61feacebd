import Scheduling.Proofs.Confinement
import Scheduling.Proofs.Cumulative.Shortcut
import Scheduling.Proofs.Turns

/-!
# Heights without the rules for heights

The rules for heights and lengths can be switched off. One rule tightens a height all the same: an
activity without which the level is outside the capacity is made present over a segment, and its
height is then restricted to what brings the level back.

Results:
* `Store.Explains`: a variable changes only under the height of an activity that was noted as
  needed.
* `TimeTable.explained_filter`: without the rules for heights this is so for each activity.
* `Resource.changes_only_needed`: and for a call of the resource, which finds no activity needed
  unless it looks for them and there is a lower limit or a height that can be negative.
* `Resource.exists_height_changed`: a call without the rules for heights can change a height.
-/

namespace Scheduling

open Propagation

namespace Store

/-- What is noted between two stores explains every change of a variable: it lies under the height
of an activity with the given property, and this activity was found to be needed. -/
def Explains (P : Activity → Prop) (s s' : Store) : Prop :=
  ∃ said, s'.notes = s.notes ++ said ∧ ∀ x, s'.domains.integer x ≠ s.domains.integer x →
    ∃ a, P a ∧ a.height.base = x ∧
      ∃ start stop, Note.message (.needed a.interval start stop) ∈ said

variable {own : List CellId} {P : Activity → Prop} {s s' s'' : Store}

theorem Explains.trans (h : s.Explains P s') (h' : s'.Explains P s'') : s.Explains P s'' := by
  obtain ⟨said, notes, known⟩ := h
  obtain ⟨more, notes', known'⟩ := h'
  refine ⟨said ++ more, by rw [notes', notes, List.append_assoc], fun x changed => ?_⟩
  by_cases first : s'.domains.integer x = s.domains.integer x
  · obtain ⟨a, property, base, start, stop, noted⟩ :=
      known' x fun same => changed (same.trans first)
    exact ⟨a, property, base, start, stop, List.mem_append_right _ noted⟩
  · obtain ⟨a, property, base, start, stop, noted⟩ := known x first
    exact ⟨a, property, base, start, stop, List.mem_append_left _ noted⟩

/-- Notes are only added. -/
theorem Reaches.exists_notes (h : s.Reaches own s') : ∃ said, s'.notes = s.notes ++ said := by
  induction h with
  | refl => exact ⟨[], (List.append_nil _).symm⟩
  | tail _ move ih =>
    obtain ⟨said, notes⟩ := ih
    cases move with
    | decide d wrote => exact ⟨said, notes⟩
    | assign mem assigned => exact ⟨said, notes⟩
    | note n => exact ⟨said ++ [n], by rw [note, notes, List.append_assoc]⟩

end Store

/-! ## Explained computations -/

namespace Propagation

variable {α β : Type} {own : List CellId} {scope : List Watched} {P : Activity → Prop}

/-- Whatever the outcome, all changes of variables are explained. -/
def Explained (P : Activity → Prop) (x : Propagation α) : Prop :=
  ∀ s r s', x.exec s = .ok (r, s') → s.Explains P s'

/-- A computation that is about intervals only changes no variable. -/
theorem Local.explained {x : Propagation α} (h : Local own scope x)
    (out : ∀ y, .integer y ∉ scope) : Explained P x := by
  intro s r s' ran
  obtain ⟨said, notes⟩ := (h.performs s r s' ran).exists_notes
  exact ⟨said, notes, fun y changed => absurd ((h.frame s r s' ran).integer y (out y)) changed⟩

theorem explained_bind {x : Propagation α} {f : α → Propagation β} (h : Explained P x)
    (h' : ∀ a, Explained P (f a)) : Explained P (x >>= f) := by
  intro s r s'' ran
  rcases exec_bind_eq_ok_iff.1 ran with ⟨a, s', first, second⟩ | ⟨cause, failed, -⟩
  · exact (h s _ s' first).trans (h' a s' r s'' second)
  · exact h s _ s'' failed

theorem explained_ite {c : Prop} [Decidable c] {x y : Propagation α} (h : c → Explained P x)
    (h' : ¬ c → Explained P y) : Explained P (if c then x else y) := by
  split
  · exact h ‹_›
  · exact h' ‹_›

/-- A step that is taken on a condition, with what follows it. -/
theorem explained_when {c : Prop} [Decidable c] {x : Propagation Unit} {f : Unit → Propagation β}
    (h : c → Explained P x) (h' : ∀ a, Explained P (f a)) :
    Explained P (if c then x >>= f else f ()) :=
  explained_ite (fun holds => explained_bind (h holds) h') fun _ => h' ()

theorem explained_pure (a : α) : Explained P (pure a) := by
  have silent : Local [] [] (pure a : Propagation α) := local_pure a
  exact silent.explained (by simp)

theorem explained_liftM (x : Except Fault α) : Explained P (liftM x) := by
  have silent : Local [] [] (liftM x : Propagation α) := local_liftM x
  exact silent.explained (by simp)

theorem explained_writeCell (cell : CellId) (value : Int) :
    Explained P (writeCell cell value) := by
  have silent : Local [cell] [] (writeCell cell value) :=
    local_writeCell (List.mem_singleton.2 rfl) value
  exact silent.explained (by simp)

theorem explained_forM {l : List α} {f : α → Propagation PUnit} (h : ∀ a ∈ l, Explained P (f a)) :
    Explained P (l.forM f) := by
  induction l with
  | nil => exact explained_pure _
  | cons a l ih =>
    exact explained_bind (h a List.mem_cons_self) fun _ =>
      ih fun b mem => h b (List.mem_cons_of_mem _ mem)

end Propagation

/-! ## The rules for one activity -/

namespace TimeTable

variable {t : TimeTable} {P : Activity → Prop}

/-- Where an activity is needed, that is noted before anything changes. -/
theorem explained_force {a : Activity} (property : P a) (start stop : Int) (others : Load) :
    Explained P (t.force a start stop others) := by
  intro s r s' ran
  have near : Local [] a.scope (t.force a start stop others) :=
    local_force (List.Subset.refl _) t start stop others
  rcases exec_bind_eq_ok_iff.1 ran with ⟨_, noted, first, later⟩ | ⟨cause, failed, -⟩
  · cases first
    have performs : Performs [] (do
        update a.interval .present
        tighten a.interval .startMax (Width.w32.saturate start)
        tighten a.interval .endMin (Width.w32.saturate stop)
        t.tightenHeight a others) :=
      performs_bind (performs_update _ _) fun _ => performs_bind (performs_tighten _ _ _) fun _ =>
        performs_bind (performs_tighten _ _ _) fun _ => performs_tightenHeight t a others
    obtain ⟨more, notes⟩ := (performs _ r s' later).exists_notes
    refine ⟨.message (.needed a.interval start stop) :: more, ?_, fun x changed => ?_⟩
    · rw [notes]
      exact List.append_assoc ..
    · refine ⟨a, property, ?_, start, stop, List.mem_cons_self⟩
      by_contra other
      refine changed ((near.frame s r s' ran).integer x fun inside => other ?_)
      simpa [Activity.scope, eq_comm] using inside
  · cases failed

/-- Along the segments only needed activities have their heights changed. -/
theorem explained_coverFrom {c : Captured} {rules : Rules} (off : rules.heights = false)
    (property : rules.needed = true → P c.activity) (left segment : Nat) :
    Explained P (t.coverFrom c rules left segment) := by
  induction left generalizing segment with
  | zero => exact explained_pure _
  | succ left ih =>
    refine explained_bind (explained_liftM _) fun span =>
      explained_ite (fun _ => explained_pure _) fun _ => ?_
    refine explained_bind (explained_liftM _) fun point =>
      explained_bind (explained_liftM _) fun others => ?_
    split
    · exact explained_when (fun on => by simp [off] at on) fun _ => ih _
    · refine explained_when (fun needed => explained_force (property ?_) _ _ _) fun _ => ih _
      simp only [Bool.and_eq_true] at needed
      exact needed.1.1

/-- Without the rules for heights an activity has its height changed only where it is needed. -/
theorem explained_filter {c : Captured} {rules : Rules} (off : rules.heights = false)
    (property : rules.needed = true → P c.activity) : Explained P (t.filter rules c) := by
  have about : .interval c.activity.interval ∈ [Watched.interval c.activity.interval] :=
    List.mem_singleton.2 rfl
  have place : Local [] [.interval c.activity.interval] (t.place c) :=
    local_bind (local_liftM _) fun _ => local_when (local_tighten about _ _) fun _ =>
      local_bind (local_liftM _) fun _ => local_ite (local_tighten about _ _) (local_pure _)
  have look : Local [] [.interval c.activity.interval] (interval c.activity.interval) :=
    local_interval about
  have silent : Local [] [] (say (.fitsNowhere c.activity.interval)) := local_say _
  refine explained_ite (fun _ => explained_pure _) fun _ =>
    explained_bind (place.explained (by simp)) fun _ =>
    explained_bind (look.explained (by simp)) fun v =>
    explained_ite (fun _ => silent.explained (by simp)) fun _ => ?_
  refine explained_when (fun _ => explained_coverFrom off property _ _) fun _ => ?_
  exact explained_ite (fun on => by simp [off] at on) fun _ => explained_pure _

end TimeTable

/-! ## The resource -/

namespace Resource

/-- The resource looks for needed activities, and there can be some. -/
def Seeks (r : Resource) (d : Domains) : Prop :=
  r.options.detectNeeded = true ∧ (r.capacity.hasMinimum = true ∨
    ∃ a ∈ r.activities.toList, ∃ low < 0, a.height.lower d = .ok low)

variable {r : Resource} {context : Context} {status : Status} {d : Domains} {cs : List Captured}

/-- The rule that finds needed activities applies only then. -/
theorem seeks_of_rules (listed : ∀ c ∈ cs, c.activity ∈ r.activities.toList)
    (known : ∀ c ∈ cs, c.activity.bounds d = .ok c.bounds)
    (applies : (r.rules (cs.map Captured.bounds)).needed = true) : r.Seeks d := by
  simp only [rules, Bool.and_eq_true, Bool.or_eq_true, Bool.not_eq_true'] at applies
  refine ⟨applies.1, applies.2.imp_right fun negative => ?_⟩
  obtain ⟨c, mem, below⟩ : ∃ c ∈ cs, c.bounds.heightMin < 0 := by
    simpa [allPositive] using negative
  obtain ⟨-, -, -, lower, -⟩ := Activity.bounds_eq_ok (known c mem)
  exact ⟨c.activity, listed c mem, c.bounds.heightMin, below, lower⟩

theorem explained_filter (off : r.options.filterHeights = false)
    (listed : ∀ c ∈ cs, c.activity ∈ r.activities.toList)
    (known : ∀ c ∈ cs, c.activity.bounds d = .ok c.bounds) :
    Explained (fun a => a ∈ r.activities.toList ∧ r.Seeks d) (r.filter context cs) := by
  have heights : (r.rules (cs.map Captured.bounds)).heights = false := by simp [rules, off]
  have stopped : Local [] [] (conflict name : Propagation Unit) := local_throw _
  refine explained_bind (explained_liftM _) fun profile =>
    explained_when (fun _ => stopped.explained (by simp)) fun _ =>
    explained_ite (fun _ => explained_writeCell _ _) fun _ =>
    explained_bind (explained_forM fun c moving => ?_) fun _ =>
    explained_bind (explained_writeCell _ _) fun _ => explained_writeCell _ _
  exact TimeTable.explained_filter heights fun applies =>
    ⟨listed c (List.mem_filter.1 moving).1, seeks_of_rules listed known applies⟩

theorem explains_of_propagate {s s' : Store} (off : r.options.filterHeights = false)
    (ran : (r.propagate context).exec s = .ok (status, s')) :
    s.Explains (fun a => a ∈ r.activities.toList ∧ r.Seeks s.domains) s' := by
  rcases exec_bind_eq_ok_iff.1 ran with ⟨cs, t, captured, later⟩ | ⟨cause, captured, -⟩
  · have listed := (r.confined_capture (i := ⟨0⟩) s _ t captured).2 cs rfl
    obtain ⟨rfl, cs', eq, known⟩ := capture_spec captured
    cases eq
    have silent : Local [] [] (say .capacitySafe) := local_say _
    refine explained_ite (fun _ => explained_writeCell _ _) (fun _ => explained_ite (fun _ =>
      explained_bind (silent.explained (by simp)) fun _ => explained_writeCell _ _) fun _ =>
      explained_filter off listed known) _ _ _ later
  · obtain ⟨-, cs, eq, -⟩ := capture_spec captured
    cases eq

/-- Where the rules for heights are switched off, a call changes a variable only under the height of
an activity that it finds to be needed, and says so. There is no such activity unless the resource
looks for them, and has a lower limit or a height that can be negative. -/
theorem changes_only_needed {f f' : Engine Rule} {p : PropagatorId}
    (row : f.propagators.get? p.index = some (.resource r)) (off : r.options.filterHeights = false)
    (called : f.call p = .ok (status, f')) :
    f.store.Explains (fun a => a ∈ r.activities.toList ∧ r.Seeks f.domains) f'.store := by
  obtain ⟨activity, q, q', s', -, row', ran, rfl⟩ := Engine.call_spec called
  obtain rfl : .resource r = q := Option.some.inj (row.symm.trans row')
  obtain ⟨r', -, ran⟩ := Rule.lift_spec ran
  obtain ⟨start, stop, n, t, -, -, -, dropped, propagated⟩ := Resource.run_spec ran
  obtain ⟨active, cells, -, rfl, rfl⟩ := dropDone_spec dropped
  -- Dropping activities writes cells only, and leaves what the resource is about.
  have explains := explains_of_propagate (r := { r with active }) off propagated
  exact explains

/-! ## A height that changes -/

/-- Two activities from `0` to `5`: a present one of height `1`, and an optional one with a height
from `0` to `3`. -/
def neededActivities : List Activity :=
  [⟨⟨0⟩, .affine (.plain ⟨0⟩) ⟨1, 0⟩⟩, ⟨⟨1⟩, .affine (.plain ⟨1⟩) ⟨1, 0⟩⟩]

/-- The state before they are posted. -/
def neededStart : State :=
  .reach [.newInteger 1 1, .newInteger 0 3, .newInterval ⟨0, 0, 5, 5, 5, 5⟩ .present,
    .newInterval ⟨0, 0, 5, 5, 5, 5⟩ .optional]

/-- The level has to be at least `2`, and the rules for heights are switched off. -/
def neededPosting : Operation :=
  .post (.resource neededActivities ⟨2, Capacity.unlimitedMaximum⟩ ⟨true, false⟩)

def neededResource : Resource :=
  (blueprint neededActivities ⟨2, Capacity.unlimitedMaximum⟩ ⟨true, false⟩).build ⟨0⟩ ⟨1⟩

/-- The engine on which the resource is called for the first time. -/
def neededAsked : Engine Rule := neededPosting.called neededStart.solver

/-- The engine after the call. -/
def neededAnswered : Engine Rule := .left (neededAsked.call ⟨0⟩)

theorem neededAsked_call : neededAsked.propagators.get? 0 = some (.resource neededResource) ∧
    neededAsked.call ⟨0⟩ = .ok (.ok (), neededAnswered) ∧
    neededAsked.domains.integer ⟨1⟩ = .ok ⟨0, 3⟩ ∧
    neededAnswered.domains.integer ⟨1⟩ = .ok ⟨1, 3⟩ := by
  have asked : (neededAsked.propagators.get? 0, (neededAsked.call ⟨0⟩).toOption.map (·.1),
      neededAsked.domains.integer ⟨1⟩, neededAnswered.domains.integer ⟨1⟩) =
        (some (.resource neededResource), some (.ok ()), .ok ⟨0, 3⟩, .ok ⟨1, 3⟩) := by cbv
  simp only [Prod.mk.injEq] at asked
  obtain ⟨row, succeeds, before, after⟩ := asked
  exact ⟨row, Engine.eq_ok_left succeeds, before, after⟩

/-- The call says that the second activity is needed. -/
theorem changes_only_needed_optional : ∃ said,
    neededAnswered.store.notes = neededAsked.store.notes ++ said ∧
      ∃ start stop, .message (.needed ⟨1⟩ start stop) ∈ said := by
  obtain ⟨row, called, before, after⟩ := neededAsked_call
  obtain ⟨said, notes, known⟩ := changes_only_needed row rfl called
  have changed : neededAnswered.domains.integer ⟨1⟩ ≠ neededAsked.domains.integer ⟨1⟩ := by
    rw [before, after]
    decide
  obtain ⟨a, ⟨mem, -⟩, base, start, stop, noted⟩ := known ⟨1⟩ changed
  have mem : a ∈ neededActivities := mem
  obtain rfl | rfl : a = ⟨⟨0⟩, .affine (.plain ⟨0⟩) ⟨1, 0⟩⟩ ∨
      a = ⟨⟨1⟩, .affine (.plain ⟨1⟩) ⟨1, 0⟩⟩ := by
    simpa [neededActivities] using mem
  · cases base
  · exact ⟨said, notes, start, stop, noted⟩

/-- The optional activity is needed, so its height can no longer be `0`. -/
theorem exists_height_changed : ∃ (c : State) (op : Operation) (p : PropagatorId)
    (f f' : Engine Rule) (r : Resource) (a : Activity), Reachable c ∧ op.Valid c.solver ∧
    op.Calls c.solver p f ∧ f.propagators.get? p.index = some (.resource r) ∧
    r.options.filterHeights = false ∧ a ∈ r.activities.toList ∧ f.call p = .ok (.ok (), f') ∧
    f.domains.integer a.height.base = .ok ⟨0, 3⟩ ∧
    f'.domains.integer a.height.base = .ok ⟨1, 3⟩ := by
  have first : (neededPosting.caller? neededStart.solver).map Prod.fst = some ⟨0⟩ := by cbv
  obtain ⟨row, called, before, after⟩ := neededAsked_call
  exact ⟨neededStart, neededPosting, ⟨0⟩, neededAsked, neededAnswered, neededResource,
    ⟨⟨1⟩, .affine (.plain ⟨1⟩) ⟨1, 0⟩⟩, reachable_reach _, by decide,
    Operation.calls_of_caller? first, row, rfl, by decide, called, before, after⟩

end Resource

end Scheduling
