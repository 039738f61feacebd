import Scheduling.Proofs.Reachability

/-!
# Posting constraints

What a user calls is made of operations: a constraint creates variables and posts propagators, and
stops at the first one that is refused. So whatever is proved of runs holds of programs.

Results:
* `Posting.Walks`: from some state, a posting makes the steps of a run.
* `Cumulative.walks_post`, `NoOverlap.walks_post`, `UsageConstraint.walks_postAll`: the constraints.
* `Session.withinHorizon_clippedBounds`: the bounds of a new interval lie within the horizon.
-/

namespace Scheduling

/-- The problem is not known to be infeasible and no propagation has just failed. -/
structure State.Ready (c : State) : Prop where
  feasible : c.solver.isInfeasible = false
  last : c.last ≠ .failed
  sane : c.solver.engine.Sane

theorem State.Ready.step {c c' : State} {op : Operation} (h : c.Ready) (valid : op.Valid c.solver)
    (ran : op.run c.solver = .ok c') : Step op c c' :=
  ⟨valid, fun failed => absurd failed h.last, ran⟩

theorem State.Ready.next {c c' : State} {op : Operation} (h : c.Ready) (step : Step op c c')
    (feasible : c'.solver.isInfeasible = false) (last : c'.last ≠ .failed) : c'.Ready :=
  ⟨feasible, last, step.sane (fun _ => h.sane) feasible⟩

theorem Step.runs {op : Operation} {c c' : State} (h : Step op c c') : Runs c c' :=
  .next .refl h fun _ _ _ => trivial

/-! ## Rows stay -/

/-- The second domains have all rows of the first ones. -/
structure Domains.Extends (d d' : Domains) : Prop where
  integers : d.integers.size ≤ d'.integers.size
  intervals : d.intervals.size ≤ d'.intervals.size

theorem Domains.Extends.refl (d : Domains) : d.Extends d := ⟨Nat.le_refl _, Nat.le_refl _⟩

theorem Domains.Extends.trans {a b c : Domains} (h : a.Extends b) (h' : b.Extends c) :
    a.Extends c :=
  ⟨Nat.le_trans h.integers h'.integers, Nat.le_trans h.intervals h'.intervals⟩

theorem Domains.Narrows.extends {d d' : Domains} (h : d.Narrows d') : d.Extends d' := by
  constructor
  · refine Nat.le_of_not_lt fun fewer => ?_
    obtain ⟨row, found⟩ := Table.exists_get? fewer
    obtain ⟨row', found', -⟩ :=
      h.integer ⟨d'.integers.size⟩ row (Domains.integer_eq_ok_iff.2 found)
    exact Nat.lt_irrefl _ (Table.lt_size_of_get? (Domains.integer_eq_ok_iff.1 found'))
  · refine Nat.le_of_not_lt fun fewer => ?_
    obtain ⟨row, found⟩ := Table.exists_get? fewer
    obtain ⟨row', found', -⟩ :=
      h.interval ⟨d'.intervals.size⟩ row (Domains.interval_eq_ok_iff.2 found)
    exact Nat.lt_irrefl _ (Table.lt_size_of_get? (Domains.interval_eq_ok_iff.1 found'))

theorem Engine.Quietly.extends {e e' : Engine Rule} (h : e.Quietly e') :
    e.domains.Extends e'.domains := by
  cases h with
  | newInteger =>
    refine ⟨?_, Nat.le_refl _⟩
    show e.domains.integers.size ≤ (e.domains.addInteger _).integers.size
    simp [Domains.addInteger]
  | addInterval =>
    refine ⟨Nat.le_refl _, ?_⟩
    show e.domains.intervals.size ≤ (e.domains.addInterval _).intervals.size
    simp [Domains.addInterval]
  | checkpoint => exact ⟨Nat.le_refl _, Nat.le_refl _⟩
  | @undoTo _ k undone =>
    obtain ⟨domains, cells, first, -, rfl⟩ := undoTo_spec undone
    obtain ⟨-, depth, -, past, -⟩ := Domains.undo_spec first
    have now := past domains.depth
    rw [Domains.past_depth] at now
    have sizes := Domains.size_past e.domains (min k domains.depth)
    rw [← now] at sizes
    exact ⟨Nat.le_of_eq sizes.1.symm, Nat.le_of_eq sizes.2.symm⟩
  | silent same =>
    have before := Domains.size_past e.domains 0
    have after := Domains.size_past e'.domains 0
    rw [same.past, before.1, before.2] at after
    exact ⟨Nat.le_of_eq after.1, Nat.le_of_eq after.2⟩

theorem Operation.Enters.extends {op : Operation} {s : Solver Rule} {e : Engine Rule}
    (h : op.Enters s e) (sane : s.engine.Sane) : s.domains.Extends e.domains := by
  cases op with
  | decide d => exact (Engine.evolves_of_change sane d.writes h.2).domains.narrows.extends
  | propagate => exact h.2 ▸ .refl _
  | post x =>
    obtain ⟨-, id, installed⟩ := h
    rw [(Engine.installed_of_install installed).domains]
    exact .refl _
  | _ => exact h.elim

/-- Rows stay, whatever happens. -/
theorem Step.extends {op : Operation} {c c' : State} (h : Step op c c') (sane : c.Sane)
    (feasible : c'.solver.isInfeasible = false) : c.solver.domains.Extends c'.solver.domains := by
  have before := h.feasible feasible
  cases effect_of_step h before with
  | infeasible known => simp [known] at feasible
  | quiet _ moved => exact moved.extends
  | @propagated e e' status _ _ enters ran _ same =>
    have sane' := enters.sane (sane before)
    have after := (enters.extends (sane before)).trans
      (Engine.sane_of_loop sane' ran).2.1.narrows.extends
    rcases same with same | same
    · rw [Solver.domains, Solver.domains, same]
      exact after
    · rw [Solver.domains, Solver.domains, same]
      exact ⟨after.integers, after.intervals⟩

theorem Steps.extends {P : PropagatorId → Engine Rule → Prop} {c c' : State} (h : Steps P c c')
    (sane : c.Sane) (feasible : c'.solver.isInfeasible = false) :
    c.solver.domains.Extends c'.solver.domains := by
  induction h with
  | refl => exact .refl _
  | next steps step _ ih =>
    exact (ih (step.feasible feasible)).trans (step.extends (steps.sane sane) feasible)

/-! ## Postings are runs -/

namespace Posting

variable {α β : Type}

/-- From the state, the posting makes the steps of a run. If it is not refused, the next operation
may be any, and `Q` holds of the result and the last state. -/
def Walks (x : Posting Rule α) (c : State) (Q : α → State → Prop) : Prop :=
  ∀ r s', x.run.run c.solver = .ok (r, s') → ∃ last, Runs c ⟨s', last⟩ ∧
    ∀ a, r = .ok a → State.Ready ⟨s', last⟩ ∧ Q a ⟨s', last⟩

theorem walks_pure {a : α} {c : State} {Q : α → State → Prop} (ready : c.Ready) (q : Q a c) :
    Walks (pure a) c Q := by
  intro r s' ran
  cases ran
  refine ⟨c.last, .refl, fun b eq => ?_⟩
  cases eq
  exact ⟨ready, q⟩

theorem walks_throw {cause : PostError} {c : State} {Q : α → State → Prop} :
    Walks (throw cause : Posting Rule α) c Q := by
  intro r s' ran
  cases ran
  exact ⟨c.last, .refl, fun b eq => by cases eq⟩

theorem walks_bind {x : Posting Rule α} {f : α → Posting Rule β} {c : State}
    {Q : α → State → Prop} {R : β → State → Prop} (h : Walks x c Q)
    (h' : ∀ a c', Runs c c' → c'.Ready → Q a c' → Walks (f a) c' R) : Walks (x >>= f) c R := by
  intro r s'' ran
  rcases run_bind_eq_ok_iff.1 ran with ⟨a, s', first, second⟩ | ⟨cause, first, rfl⟩
  · obtain ⟨last, runs, done⟩ := h _ s' first
    obtain ⟨ready, q⟩ := done a rfl
    obtain ⟨last', runs', done'⟩ := h' a ⟨s', last⟩ runs ready q r s'' second
    exact ⟨last', runs.trans runs', done'⟩
  · obtain ⟨last, runs, -⟩ := h _ s'' first
    exact ⟨last, runs, fun b eq => by cases eq⟩

theorem walks_fault {c : State} (ready : c.Ready) (x : Except Fault α) :
    Walks (liftM x : Posting Rule α) c fun _ c' => c' = c := by
  intro r s' ran
  cases x with
  | error fault => cases ran
  | ok a =>
    cases ran
    exact ⟨c.last, .refl, fun _ _ => ⟨ready, rfl⟩⟩

theorem walks_mapM {l : List α} {f : α → Posting Rule β} {c : State} (ready : c.Ready)
    (h : ∀ a c', c'.Ready → Walks (f a) c' fun _ _ => True) :
    Walks (l.mapM f) c fun _ _ => True := by
  induction l generalizing c with
  | nil => exact walks_pure ready trivial
  | cons a l ih =>
    rw [List.mapM_cons]
    exact walks_bind (h a c ready) fun _ _ _ ready' _ =>
      walks_bind (ih ready') fun _ _ _ ready'' _ => walks_pure ready'' trivial

/-- A single operation that does not propagate. -/
theorem walks_of_step {x : Session Rule α} {c : State} {Q : α → State → Prop} (op : Operation)
    (ready : c.Ready)
    (h : ∀ a s', x.run c.solver = .ok (a, s') → s'.isInfeasible = false ∧
      op.Valid c.solver ∧ op.run c.solver = .ok ⟨s', .done⟩ ∧ Q a ⟨s', .done⟩) :
    Walks (liftM x : Posting Rule α) c Q := by
  intro r s' ran
  obtain ⟨a, ran', rfl⟩ := run_liftM_eq_ok_iff.1 ran
  obtain ⟨feasible, valid, performed, q⟩ := h a s' ran'
  have step := ready.step valid performed
  refine ⟨.done, step.runs, fun b eq => ?_⟩
  cases eq
  exact ⟨ready.next step feasible (by simp), q⟩

/-- Posting a propagator is one operation. -/
theorem step_of_add {x : Posted} {c : State} {r : Except PostError PropagatorId} {s' : Solver Rule}
    (ready : c.Ready) (valid : x.Valid c.solver.domains)
    (ran : (add x.blueprint).run.run c.solver = .ok (r, s')) :
    ∃ last, Step (.post x) c ⟨s', last⟩ ∧ ∀ p, r = .ok p → last = .done ∧
      s'.isInfeasible = false ∧ p = ⟨c.solver.engine.propagators.size⟩ := by
  have performed : Operation.run c.solver (.post x) = .ok ⟨s', Operation.posted r⟩ := by
    show ((add x.blueprint).run.run c.solver >>= _) = _
    rw [ran]
    rfl
  refine ⟨Operation.posted r, ready.step valid performed, ?_⟩
  rcases add_spec ran with ⟨infeasible, -⟩ | ⟨feasible, id, e, status, e', installed, -, -, this⟩
  · simp [ready.feasible] at infeasible
  · rcases this with ⟨-, rfl, rfl⟩ | ⟨-, rfl, -⟩
    · intro p eq
      cases eq
      exact ⟨rfl, feasible, (Engine.installed_of_install installed).key⟩
    · intro p eq
      cases eq

/-- Nothing is posted to a problem that is known to be infeasible. -/
theorem feasible_of_add {b : Blueprint Rule} {s s' : Solver Rule} {p : PropagatorId}
    (ran : (add b).run.run s = .ok (.ok p, s')) : s.isInfeasible = false := by
  rcases add_spec ran with ⟨-, -, refused⟩ | ⟨feasible, -⟩
  · cases refused
  · exact feasible

/-- A propagator that is not refused is posted in one step. -/
theorem step_of_add_ok {x : Posted} {c : State} {s' : Solver Rule} {p : PropagatorId}
    (ready : c.Ready) (valid : x.Valid c.solver.domains)
    (ran : (add x.blueprint).run.run c.solver = .ok (.ok p, s')) :
    Step (.post x) c ⟨s', .done⟩ ∧ State.Ready ⟨s', .done⟩ ∧
      p = ⟨c.solver.engine.propagators.size⟩ := by
  obtain ⟨last, step, done⟩ := step_of_add ready valid ran
  obtain ⟨rfl, feasible, key⟩ := done p rfl
  exact ⟨step, ready.next step feasible (by simp), key⟩

theorem walks_add {x : Posted} {c : State} (ready : c.Ready) (valid : x.Valid c.solver.domains) :
    Walks (add x.blueprint) c fun p _ => p = ⟨c.solver.engine.propagators.size⟩ := by
  intro r s' ran
  obtain ⟨last, step, done⟩ := step_of_add ready valid ran
  refine ⟨last, step.runs, fun p eq => ?_⟩
  obtain ⟨rfl, feasible, key⟩ := done p eq
  exact ⟨ready.next step feasible (by simp), key⟩

theorem walks_say {c : State} (ready : c.Ready) (m : Message) :
    Walks (liftM (Session.say m : Session Rule Unit) : Posting Rule Unit) c fun _ _ => True := by
  refine walks_of_step (.say m) ready fun a s' ran => ?_
  cases ran
  exact ⟨ready.feasible, trivial, rfl, trivial⟩

theorem walks_inspect {c : State} (ready : c.Ready) (read : Domains → Except Fault α) :
    Walks (liftM (Session.inspect read : Session Rule α) : Posting Rule α) c
      fun _ c' => c' = c := by
  intro r s' ran
  obtain ⟨a, ran', rfl⟩ := run_liftM_eq_ok_iff.1 ran
  obtain ⟨s, _, got, rest⟩ := Scheduling.run_bind_eq_ok_iff.1 ran'
  cases got
  obtain ⟨-, rfl⟩ := Scheduling.run_liftM_eq_ok_iff.1 rest
  exact ⟨c.last, .refl, fun b _ => ⟨ready, rfl⟩⟩

theorem walks_newInteger {c : State} (ready : c.Ready) {lower upper : Int}
    (holds : Width.w32.Holds lower ∧ Width.w32.Holds upper) :
    Walks (liftM (Session.newInteger lower upper : Session Rule IntegerId) :
      Posting Rule IntegerId) c fun x c' => x.index < c'.solver.domains.integers.size := by
  refine walks_of_step (.newInteger lower upper) ready fun x s' ran => ?_
  have performed : Operation.run c.solver (.newInteger lower upper) = .ok ⟨s', .done⟩ := by
    show ((Session.newInteger lower upper).run c.solver >>= _) = _
    rw [ran]
    rfl
  obtain ⟨-, rfl, rfl⟩ := Session.newInteger_spec ran
  refine ⟨ready.feasible, holds, performed, ?_⟩
  show c.solver.domains.integers.size < (c.solver.domains.addInteger _).integers.size
  simp [Domains.addInteger]

theorem walks_newLiteral {c : State} (ready : c.Ready) :
    Walks (liftM (Session.newLiteral : Session Rule Literal) : Posting Rule Literal) c
      fun _ _ => True := by
  refine walks_of_step (.newInteger 0 1) ready fun l s' ran => ?_
  cases ran
  exact ⟨ready.feasible, ⟨by decide, by decide⟩, rfl, trivial⟩

theorem walks_addInterval {c : State} (ready : c.Ready) {bounds : Bounds} (presence : Presence)
    (within : bounds.WithinHorizon) :
    Walks (liftM (Session.onEngine (·.newInterval bounds presence) : Session Rule IntervalId) :
      Posting Rule IntervalId) c fun i c' => i.index < c'.solver.domains.intervals.size := by
  refine walks_of_step (.newInterval bounds presence) ready fun i s' ran => ?_
  have performed : Operation.run c.solver (.newInterval bounds presence) = .ok ⟨s', .done⟩ := by
    show ((Session.onEngine (·.newInterval bounds presence)).run c.solver >>= _) = _
    rw [ran]
    rfl
  obtain ⟨e, made, rfl⟩ := Session.onEngine_eq_ok_iff.1 ran
  obtain ⟨row, -, rfl, rfl⟩ := Engine.newInterval_spec made
  refine ⟨ready.feasible, within, performed, ?_⟩
  show c.solver.domains.intervals.size < (c.solver.domains.addInterval _).intervals.size
  simp [Domains.addInterval]

end Posting

/-- The bounds of a new interval lie within the horizon. -/
theorem Session.withinHorizon_clippedBounds {startMin startMax lengthMin lengthMax : Int}
    (nonneg : 0 ≤ lengthMin) (le : lengthMin ≤ lengthMax) :
    (clippedBounds startMin startMax lengthMin lengthMax).WithinHorizon := by
  constructor <;> simp only [clippedBounds, clip, horizon] <;> omega

/-- What a new interval does. -/
theorem Session.newInterval_spec {P : Type} {s s' : Solver P}
    {startMin startMax lengthMin lengthMax : Int} {isOptional : Bool} {i : IntervalId}
    (h : (newInterval startMin startMax lengthMin lengthMax isOptional).run s = .ok (i, s')) :
    ∃ bounds presence e, bounds.WithinHorizon ∧ s.engine.newInterval bounds presence = .ok (i, e) ∧
      s' = s.withEngine e := by
  simp only [newInterval] at h
  split at h
  · obtain ⟨_, _, thrown, -⟩ := run_bind_eq_ok_iff.1 h
    cases thrown
  · rename_i nonempty
    simp only [Bool.or_eq_true, decide_eq_true_eq, not_or, Int.not_lt] at nonempty
    obtain ⟨e, made, rfl⟩ := onEngine_eq_ok_iff.1 h
    exact ⟨_, _, e, withinHorizon_clippedBounds nonempty.1.2 nonempty.2, made, rfl⟩

namespace Posting

theorem walks_newInterval {c : State} (ready : c.Ready)
    (startMin startMax lengthMin lengthMax : Int) (isOptional : Bool) :
    Walks (liftM (Session.newInterval startMin startMax lengthMin lengthMax isOptional :
      Session Rule IntervalId) : Posting Rule IntervalId) c
      fun i c' => i.index < c'.solver.domains.intervals.size := by
  intro r s' ran
  obtain ⟨i, made, rfl⟩ := run_liftM_eq_ok_iff.1 ran
  obtain ⟨bounds, presence, e, within, grown, rfl⟩ := Session.newInterval_spec made
  exact walks_addInterval ready presence within _ _
    (run_liftM_eq_ok_iff.2 ⟨i, Session.onEngine_eq_ok_iff.2 ⟨e, grown, rfl⟩, rfl⟩)

/-- An interval that follows another one. -/
theorem walks_newSynchronisedInterval {c : State} (ready : c.Ready) (source : IntervalId)
    (point : Endpoint) : Walks (newSynchronisedInterval source point) c
      fun i c' => i.index < c'.solver.domains.intervals.size := by
  unfold newSynchronisedInterval
  refine walks_bind (walks_inspect ready _) fun v c' _ ready' _ => ?_
  refine walks_bind (walks_addInterval ready' v.presence (by
    constructor <;> simp [horizon])) fun i c'' runs ready'' inside => ?_
  refine walks_bind (walks_add (x := .synchronisation ⟨source, i, point⟩) ready'' trivial)
    fun _ _ runs ready _ => walks_pure ready ?_
  exact Nat.lt_of_lt_of_le inside (runs.extends (fun _ => ready''.sane) ready.feasible).intervals

end Posting

/-! ## Constraints -/

theorem Domains.Knows.extends {d d' : Domains} {activities : List Activity}
    (h : d.Knows activities) (more : d.Extends d') : d'.Knows activities :=
  fun a mem => ⟨Nat.lt_of_lt_of_le (h a mem).1 more.intervals,
    Nat.lt_of_lt_of_le (h a mem).2 more.integers⟩

namespace Cumulative

/-- The capacity of limits that are accepted. -/
theorem eq_of_capacity {minimum maximum : Option Int} {c : Capacity}
    (h : capacity minimum maximum = .ok c) :
    c = ⟨max (minimum.getD Capacity.unlimitedMinimum) Capacity.unlimitedMinimum,
      min (maximum.getD Capacity.unlimitedMaximum) Capacity.unlimitedMaximum⟩ ∧
      ∀ most, maximum = some most → 0 ≤ most := by
  unfold capacity at h
  cases minimum with
  | none =>
    cases maximum with
    | none =>
      cases h
      exact ⟨rfl, by simp⟩
    | some most =>
      simp only [bind, Except.bind, pure, Except.pure] at h
      split at h
      · cases h
      · cases h
        exact ⟨rfl, by simp; omega⟩
  | some low =>
    cases maximum with
    | none =>
      cases h
      exact ⟨rfl, by simp⟩
    | some most =>
      simp only [bind, Except.bind, pure, Except.pure] at h
      split at h
      · cases h
      · split at h
        · cases h
        · cases h
          exact ⟨rfl, by simp; omega⟩

/-- Limits that are given as words make a capacity of words. -/
theorem holds_capacity {minimum maximum : Option Int} {c : Capacity}
    (words : ∀ m, minimum = some m → Width.w64.Holds m) (h : capacity minimum maximum = .ok c) :
    Width.w64.Holds c.minimum ∧ Width.w64.Holds c.maximum := by
  obtain ⟨rfl, nonneg⟩ := eq_of_capacity h
  cases minimum with
  | none =>
    cases maximum with
    | none => exact ⟨by decide, by decide⟩
    | some most =>
      have := nonneg most rfl
      simp only [Option.getD, Width.Holds, Width.least, Width.greatest, Capacity.unlimitedMinimum,
        Capacity.unlimitedMaximum]
      omega
  | some low =>
    have := words low rfl
    simp only [Width.Holds, Width.least, Width.greatest] at this
    cases maximum with
    | none =>
      simp only [Option.getD, Width.Holds, Width.least, Width.greatest, Capacity.unlimitedMinimum,
        Capacity.unlimitedMaximum]
      omega
    | some most =>
      have := nonneg most rfl
      simp only [Option.getD, Width.Holds, Width.least, Width.greatest, Capacity.unlimitedMinimum,
        Capacity.unlimitedMaximum]
      omega

theorem walks_post {c : Cumulative} {s : State} (ready : s.Ready)
    (known : s.solver.domains.Knows c.activities)
    (words : ∀ m, c.minimum = some m → Width.w64.Holds m) :
    Posting.Walks c.post s fun _ _ => True := by
  unfold post
  cases limits : capacity c.minimum c.maximum with
  | error cause => exact Posting.walks_throw
  | ok cap =>
    have resource (s' : State) (runs : Runs s s') (ready' : s'.Ready) :
        Posting.Walks (Posting.add (Posted.resource c.activities cap c.options).blueprint >>=
          fun _ => pure ()) s' fun _ _ => True := by
      have known' := known.extends (runs.extends (fun _ => ready.sane) ready'.feasible)
      exact Posting.walks_bind (Posting.walks_add ready' ⟨known', holds_capacity words limits⟩)
        fun _ _ _ ready'' _ => Posting.walks_pure ready'' trivial
    simp only
    split
    · exact Posting.walks_bind (Posting.walks_add (x := .checker ⟨c.activities, cap⟩) ready trivial)
        fun _ s' runs ready' _ => resource s' runs ready'
    · exact resource s .refl ready

end Cumulative

namespace UsageConstraint

/-- The intervals and heights of the constraint exist, and its limits are words. -/
structure Valid (c : UsageConstraint) (d : Domains) : Prop where
  known : d.Knows (c.usage.activities true)
  window : ∀ i, c.window = some (.interval i) → i.index < d.intervals.size
  words : ∀ m, c.minimum = some m → Width.w64.Holds m

theorem Valid.extends {c : UsageConstraint} {d d' : Domains} (h : c.Valid d) (more : d.Extends d') :
    c.Valid d' :=
  ⟨h.known.extends more, fun i eq => Nat.lt_of_lt_of_le (h.window i eq) more.intervals, h.words⟩

theorem walks_toInterval {w : Window} {s : State} (ready : s.Ready)
    (known : ∀ i, w = .interval i → i.index < s.solver.domains.intervals.size) :
    Posting.Walks w.toInterval s fun i s' => i.index < s'.solver.domains.intervals.size := by
  cases w with
  | interval i => exact Posting.walks_pure ready (known i rfl)
  | range start stop =>
    have create (s' : State) (ready' : s'.Ready) (length : Int) :=
      Posting.walks_newInterval ready' start start length length false
    simp only [Window.toInterval]
    split
    · exact Posting.walks_bind (Posting.walks_throw (Q := fun _ _ => False))
        fun _ _ _ _ impossible => impossible.elim
    · exact Posting.walks_bind (Posting.walks_fault ready _) fun length s' _ ready' _ =>
        create s' ready' length

theorem walks_toActivity {w : Window} {s : State} (ready : s.Ready)
    (known : ∀ i, w = .interval i → i.index < s.solver.domains.intervals.size) :
    Posting.Walks w.toActivity s fun a s' => a.interval.index < s'.solver.domains.intervals.size ∧
      a.height.base.index < s'.solver.domains.integers.size := by
  refine Posting.walks_bind (walks_toInterval ready known) fun i s' _ ready' inside => ?_
  refine Posting.walks_bind (Posting.walks_newInteger ready' ⟨by decide, by decide⟩)
    fun zero s'' runs ready'' inside' => Posting.walks_pure ready'' ⟨?_, inside'⟩
  exact Nat.lt_of_lt_of_le inside
    (runs.extends (fun _ => ready'.sane) ready''.feasible).intervals

theorem walks_activities {c : UsageConstraint} {s : State} (ready : s.Ready)
    (valid : c.Valid s.solver.domains) :
    Posting.Walks c.activities s fun activities s' => s'.solver.domains.Knows activities := by
  unfold activities
  cases window : c.window with
  | none => exact Posting.walks_pure ready valid.known
  | some w =>
    refine Posting.walks_bind (walks_toActivity ready fun i eq => valid.window i (eq ▸ window))
      fun a s' runs ready' inside => Posting.walks_pure ready' ?_
    intro b mem
    rcases List.mem_append.1 mem with old | new
    · exact valid.known.extends (runs.extends (fun _ => ready.sane) ready'.feasible) b old
    · rw [List.mem_singleton.1 new]
      exact inside

theorem walks_post {c : UsageConstraint} {s : State} (ready : s.Ready)
    (valid : c.Valid s.solver.domains) : Posting.Walks c.post s fun _ _ => True := by
  refine Posting.walks_bind (walks_activities ready valid) fun activities s' _ ready' known => ?_
  split
  · exact Posting.walks_say ready' _
  · exact Cumulative.walks_post ready' known valid.words

theorem walks_postAll {constraints : List UsageConstraint} {s : State} (ready : s.Ready)
    (valid : ∀ c ∈ constraints, c.Valid s.solver.domains) :
    Posting.Walks (postAll constraints) s fun _ _ => True := by
  unfold postAll
  induction constraints generalizing s with
  | nil => exact Posting.walks_pure ready trivial
  | cons c constraints ih =>
    refine Posting.walks_bind (walks_post ready (valid c List.mem_cons_self))
      fun _ s' runs ready' _ => ih ready' fun c' mem => ?_
    exact (valid c' (List.mem_cons_of_mem _ mem)).extends
      (runs.extends (fun _ => ready.sane) ready'.feasible)

end UsageConstraint

namespace NoOverlap

theorem walks_postPair {pair : IntervalId × IntervalId} {s : State} (ready : s.Ready) :
    Posting.Walks (postPair pair) s fun _ _ => True := by
  refine Posting.walks_bind (Posting.walks_newLiteral ready) fun l s' _ ready' _ => ?_
  exact Posting.walks_bind (Posting.walks_add (x := .precedence ⟨pair.1, pair.2, l⟩) ready' trivial)
    fun _ _ _ ready'' _ => Posting.walks_pure ready'' trivial

theorem walks_post {c : NoOverlap} {s : State} (ready : s.Ready)
    (known : ∀ i ∈ c.intervals, i.index < s.solver.domains.intervals.size) :
    Posting.Walks c.post s fun _ _ => True := by
  unfold post
  split
  · exact Posting.walks_bind (Posting.walks_say ready _) fun _ _ _ ready' _ =>
      Posting.walks_pure ready' trivial
  · refine Posting.walks_bind (Posting.walks_mapM ready fun pair s' ready' => walks_postPair ready')
      fun literals s' runs ready' _ => ?_
    have more := runs.extends (fun _ => ready.sane) ready'.feasible
    split
    · refine Posting.walks_bind (Posting.walks_add (x := .machine c.intervals) ready' ?_)
        fun _ _ _ ready'' _ => Posting.walks_pure ready'' trivial
      exact fun i mem => Nat.lt_of_lt_of_le (known i mem) more.intervals
    · exact Posting.walks_pure ready' trivial

end NoOverlap

end Scheduling
