import Scheduling.Proofs.Run

/-!
# What holds on every run

Every engine of a run is sane. What is tracked about a propagator is kept by the whole run, and its
guarantee holds after every operation that did not fail.

Results:
* `Steps.sane`, `sane_of_reachable`: every engine of a run is sane, unless the problem is known to
  be infeasible.
* `Guarantee.Keeps`: the propagator is tracked, and accepts the domains of all checkpoints.
* `Guarantee.keeps_of_post`, `Guarantee.keeps_of_steps`: it is established when the propagator is
  posted, and kept from then on.
* `Guarantee.covers_of_reachable`, `Guarantee.tracks_of_call_of_reachable`: guarantees that depend
  on the propagator are tracked for all propagators of a run, and at every call.
-/

namespace Scheduling

/-! ## Sanity -/

theorem Engine.sane_empty : (Engine.empty : Engine Rule).Sane := by
  refine ⟨Store.sane_empty, Agenda.valid_empty, rfl, fun p cell mem => ?_, fun p => List.nodup_nil,
    fun p q cell mem => ?_⟩
  · cases mem
  · cases mem

namespace Engine

theorem Quietly.sane {e e' : Engine Rule} (h : e.Quietly e') (sane : e.Sane) : e'.Sane := by
  cases h with
  | newInteger wellFormed => exact sane_newInteger sane wellFormed
  | addInterval wellFormed => exact sane_addInterval sane wellFormed
  | checkpoint => exact sane_checkpoint sane
  | undoTo undone => exact sane_undoTo sane undone
  | silent same => exact same.sane sane

end Engine

/-- Up to a call propagation only advances, and the engine stays sane. -/
theorem Engine.sane_of_callsWithin {rounds : Nat} {e f : Engine Rule} {p : PropagatorId}
    (sane : e.Sane) (calls : e.CallsWithin rounds p f) : f.Sane ∧ e.Advances f := by
  induction rounds generalizing e with
  | zero => exact calls.elim
  | succ rounds ih =>
    obtain ⟨e₁, other, agenda, notified, popped, this⟩ := calls
    obtain ⟨sane₁, advances, -⟩ := round_spec sane notified popped
    rcases this with ⟨-, rfl, -⟩ | ⟨e₂, visited, later⟩
    · exact ⟨sane₁, advances⟩
    · obtain ⟨sane₂, advances₂⟩ := sane_of_visit sane₁ visited
      obtain ⟨sane', advances'⟩ := ih sane₂ later
      exact ⟨sane', advances.trans (advances₂.trans advances')⟩

theorem Operation.Enters.sane {op : Operation} {s : Solver Rule} {e : Engine Rule}
    (h : op.Enters s e) (sane : s.engine.Sane) : e.Sane := by
  cases op with
  | decide d => exact Engine.sane_change sane d.writes h.2
  | propagate => exact h.2 ▸ sane
  | post p =>
    obtain ⟨-, id, installed⟩ := h
    exact (Engine.installed_of_install installed).sane sane p.standard
  | _ => exact h.elim

theorem Operation.Enters.feasible {op : Operation} {s : Solver Rule} {e : Engine Rule}
    (h : op.Enters s e) : s.isInfeasible = false := by
  cases op with
  | decide d => exact h.1
  | propagate => exact h.1
  | post p => exact h.1
  | _ => exact h.elim

/-- The problem is known to be infeasible, or the engine is sane. -/
def State.Sane (c : State) : Prop := c.solver.isInfeasible = false → c.solver.engine.Sane

theorem Step.feasible {op : Operation} {c c' : State} (h : Step op c c')
    (feasible : c'.solver.isInfeasible = false) : c.solver.isInfeasible = false := by
  cases known : c.solver.isInfeasible with
  | false => rfl
  | true => simp [h.infeasible known] at feasible

theorem Step.sane {op : Operation} {c c' : State} (h : Step op c c') (sane : c.Sane) :
    c'.Sane := by
  intro feasible'
  have feasible := h.feasible feasible'
  cases effect_of_step h feasible with
  | infeasible known => simp [known] at feasible'
  | quiet _ moved => exact moved.sane (sane feasible)
  | propagated _ _ enters ran _ same =>
    have after := (Engine.sane_of_loop (enters.sane (sane feasible)) ran).1
    rcases same with same | same
    · exact same ▸ after
    · exact same ▸ after.dropEvents

theorem Steps.sane {P : PropagatorId → Engine Rule → Prop} {c c' : State} (h : Steps P c c')
    (sane : c.Sane) : c'.Sane := by
  induction h with
  | refl => exact sane
  | next _ step _ ih => exact step.sane ih

/-- Every engine of a run is sane, unless the problem is known to be infeasible. -/
theorem sane_of_reachable {c : State} (h : Reachable c) : c.Sane :=
  Steps.sane h fun _ => Engine.sane_empty

theorem Steps.feasible {P : PropagatorId → Engine Rule → Prop} {c c' : State} (h : Steps P c c')
    (feasible : c'.solver.isInfeasible = false) : c.solver.isInfeasible = false := by
  induction h with
  | refl => exact feasible
  | next _ step _ ih => exact ih (step.feasible feasible)

namespace Guarantee

variable {G : Guarantee} {e e' : Engine Rule} {p : PropagatorId} {activity : CellId} {q : Rule}

/-! ## Steps -/

theorem Tracks.quietly (h : G.Tracks e p activity q) (lawful : G.Lawful) (sane : e.Sane)
    (moved : e.Quietly e') : G.Tracks e' p activity q := by
  cases moved with
  | newInteger wellFormed => exact h.newInteger lawful sane wellFormed
  | addInterval wellFormed => exact h.addInterval lawful sane wellFormed
  | checkpoint => exact h.checkpoint
  | undoTo undone => exact (h.undoTo undone).1
  | silent same => exact h.same same.activity same.propagators same.past same.cells same.watches

/-- Domains that were accepted for a checkpoint stay so. -/
theorem Tracks.accepts_quietly (h : G.Tracks e p activity q) (lawful : G.Lawful) (sane : e.Sane)
    (moved : e.Quietly e') (accepted : ∀ k, G.Accepts (e.domains.past k)) (k : Nat) :
    G.Accepts (e'.domains.past k) := by
  cases moved with
  | newInteger wellFormed => exact h.accepts_newInteger lawful sane wellFormed (accepted k)
  | addInterval wellFormed => exact h.accepts_addInterval lawful sane wellFormed (accepted k)
  | checkpoint =>
    show G.Accepts (e.domains.checkpoint.past k)
    rw [Domains.past_checkpoint]
    exact accepted k
  | undoTo undone =>
    rw [(h.undoTo undone).2.2]
    exact accepted _
  | silent same => exact same.past k ▸ accepted k

theorem Tracks.enters (h : G.Tracks e p activity q) (lawful : G.Lawful) {op : Operation}
    {s : Solver Rule} (here : s.engine = e) (sane : e.Sane) (enters : op.Enters s e') :
    G.Tracks e' p activity q := by
  subst here
  cases op with
  | decide d => exact h.change lawful sane d.writes enters.2
  | propagate => exact enters.2 ▸ h
  | post x =>
    obtain ⟨-, id, installed⟩ := enters
    exact h.install lawful sane x.standard (Engine.installed_of_install installed)
  | _ => exact enters.elim

/-- Where propagation starts, the domains are accepted or the propagator will be called. -/
theorem Tracks.attends_enters (h : G.Tracks e p activity q) (lawful : G.Lawful) {op : Operation}
    {s : Solver Rule} (here : s.engine = e) (sane : e.Sane) (enters : op.Enters s e')
    (accepted : G.Accepts e.domains) : G.Accepts e'.domains ∨ e'.Attends p := by
  subst here
  cases op with
  | decide d =>
    have watches : e'.watches = s.engine.watches := by
      rcases Engine.change_spec enters.2 with ⟨_, -, -, rfl⟩ | ⟨-, -, rfl⟩ <;> rfl
    exact accepts_or_attends h lawful sane (Engine.evolves_of_change sane d.writes enters.2)
      watches accepted
  | propagate => exact .inl (enters.2 ▸ accepted)
  | post x =>
    obtain ⟨-, id, installed⟩ := enters
    exact .inl ((Engine.installed_of_install installed).domains ▸ accepted)
  | _ => exact enters.elim

/-- What was recorded for earlier checkpoints is not touched before propagation. -/
theorem past_of_enters {op : Operation} {s : Solver Rule} (sane : s.engine.Sane)
    (enters : op.Enters s e) :
    e.domains.depth = s.engine.domains.depth ∧
      ∀ k, k < s.engine.domains.depth → e.domains.past k = s.engine.domains.past k := by
  cases op with
  | decide d =>
    have evolves := (Engine.evolves_of_change sane d.writes enters.2).domains
    exact ⟨evolves.depth, evolves.past⟩
  | propagate => exact enters.2 ▸ ⟨rfl, fun _ _ => rfl⟩
  | post x =>
    obtain ⟨-, id, installed⟩ := enters
    rw [(Engine.installed_of_install installed).domains]
    exact ⟨rfl, fun _ _ => rfl⟩
  | _ => exact enters.elim

/-! ## Runs -/

/-- The propagator is tracked, and the domains of all checkpoints are accepted; those of now need
not be after a propagation that failed. -/
structure Keeps (G : Guarantee) (p : PropagatorId) (c : State) : Prop where
  sane : c.solver.engine.Sane
  tracked : ∃ activity q, G.Tracks c.solver.engine p activity q
  accepted : ∀ k, (c.last = .failed → k < c.solver.engine.domains.depth) →
    G.Accepts (c.solver.engine.domains.past k)

theorem Keeps.accepts {c : State} (h : G.Keeps p c) (lawful : G.Lawful) (last : c.last ≠ .failed) :
    G.Accepts c.solver.domains := by
  have now := h.accepted c.solver.engine.domains.depth fun failed => absurd failed last
  rw [Domains.past_depth] at now
  have known := h.sane.wellFormed_now
  have rows : c.solver.engine.domains.rows.WellFormed := ⟨known.integer, known.interval⟩
  exact lawful.accepts_of_rows rows rfl rfl now

/-- A propagation that leads to the next state. -/
theorem keeps_of_loop {c : State} {rounds : Nat} {status : Status} (lawful : G.Lawful) (sane : e.Sane)
    (tracked : G.Tracks e p activity q)
    (allowed : ∀ f q, e.CallsWithin rounds p f → G.Tracks f p activity q → G.Allowed q f.domains)
    (ran : e.loop rounds = .ok (status, e')) (last : c.last = Operation.outcome status)
    (same : c.solver.engine = e' ∨ c.solver.engine = e'.dropEvents)
    (start : G.Accepts e.domains ∨ e.Attends p)
    (before : ∀ k, k < e.domains.depth → G.Accepts (e.domains.past k)) : G.Keeps p c := by
  obtain ⟨sane', advances, -⟩ := Engine.sane_of_loop sane ran
  obtain ⟨⟨q', tracked'⟩, accepts⟩ := spec_of_loop tracked lawful sane allowed ran
  have moved : c.solver.engine.Sane ∧ G.Tracks c.solver.engine p activity q' ∧
      c.solver.engine.domains.depth = e'.domains.depth ∧
      ∀ k, c.solver.engine.domains.past k = e'.domains.past k := by
    rcases same with same | same
    · rw [same]
      exact ⟨sane', tracked', rfl, fun _ => rfl⟩
    · rw [same]
      exact ⟨sane'.dropEvents, tracked'.same rfl rfl (fun _ => rfl) rfl rfl, rfl, fun _ => rfl⟩
  obtain ⟨sane'', tracked'', depth, past⟩ := moved
  refine ⟨sane'', ⟨activity, q', tracked''⟩, fun k below => ?_⟩
  rw [past]
  by_cases earlier : k < e.domains.depth
  · rw [advances.past k earlier]
    exact before k earlier
  · have ok : status = .ok () := by
      cases status with
      | ok => rfl
      | error cause =>
        have := below last
        rw [depth, advances.depth] at this
        omega
    rw [Domains.past_of_depth_le (by rw [advances.depth]; omega)]
    have rows := sane'.wellFormed_now
    exact lawful.accepts_of_rows rows rfl rfl (accepts ok start)

/-- The guarantee of a propagator is kept by a step. -/
theorem Keeps.step {c c' : State} {op : Operation} (h : G.Keeps p c) (lawful : G.Lawful)
    (step : Step op c c')
    (allowed : ∀ f activity q, op.Calls c.solver p f → G.Tracks f p activity q →
      G.Allowed q f.domains)
    (feasible : c'.solver.isInfeasible = false) : G.Keeps p c' := by
  obtain ⟨activity, q, tracked⟩ := h.tracked
  cases effect_of_step step (step.feasible feasible) with
  | infeasible known => simp [known] at feasible
  | quiet _ moved last back =>
    refine ⟨moved.sane h.sane, ⟨activity, q, tracked.quietly lawful h.sane moved⟩, fun k _ => ?_⟩
    by_cases failed : c.last = .failed
    · obtain ⟨j, undone⟩ := back failed
      obtain ⟨-, below, past⟩ := tracked.undoTo undone
      rw [past]
      exact h.accepted _ fun _ => by omega
    · exact tracked.accepts_quietly lawful h.sane moved
        (fun k => h.accepted k fun eq => absurd eq failed) k
  | propagated _ start enters ran last same =>
    have accepted (k : Nat) := h.accepted k fun eq => absurd eq start
    obtain ⟨depth, past⟩ := past_of_enters h.sane enters
    refine keeps_of_loop lawful (enters.sane h.sane) (tracked.enters lawful rfl h.sane enters)
      (fun f q calls => allowed f activity q ⟨_, enters, calls⟩) ran last same
      (tracked.attends_enters lawful rfl h.sane enters (h.accepts lawful start)) fun k below => ?_
    rw [past k (by omega)]
    exact accepted k

/-- The guarantee of a propagator is kept by every run. -/
theorem keeps_of_steps {P : PropagatorId → Engine Rule → Prop} {c c' : State} (lawful : G.Lawful)
    (allowed : ∀ f activity q, P p f → G.Tracks f p activity q → G.Allowed q f.domains)
    (steps : Steps P c c') (start : G.Keeps p c) (feasible : c'.solver.isInfeasible = false) :
    G.Keeps p c' := by
  induction steps with
  | refl => exact start
  | next _ step calls ih =>
    exact (ih (step.feasible feasible)).step lawful step
      (fun f activity q called => allowed f activity q (calls p f called)) feasible

/-- The guarantee of a propagator holds once it has been posted. -/
theorem keeps_of_post {P : PropagatorId → Engine Rule → Prop} {c c' : State} {x : Posted}
    (lawful : G.Lawful)
    (allowed : ∀ f activity q, P p f → G.Tracks f p activity q → G.Allowed q f.domains)
    (sane : c.Sane) (key : p = ⟨c.solver.engine.propagators.size⟩) (step : Step (.post x) c c')
    (calls : ∀ p f, (Operation.post x).Calls c.solver p f → P p f) (done : c'.last = .done)
    (feasible : c'.solver.isInfeasible = false)
    (watches : ∀ v event, G.Watches v event → ∃ watch ∈ x.blueprint.watches, watch.Tells v event)
    (starts : ∀ k, G.Invariant ⟨c.solver.engine.store.cells.values.size⟩
      (x.blueprint.build p ⟨c.solver.engine.store.cells.values.size + 1⟩)
      (c.solver.engine.domains.past k)
      ((1 :: x.blueprint.cells).foldl Table.push (c.solver.engine.store.cells.past k))) :
    G.Keeps p c' := by
  have feasible₀ := step.feasible feasible
  have sane := sane feasible₀
  rcases step.posted feasible₀ with known | ⟨-, id, e, status, install, ran, last⟩
  · simp [known] at feasible
  · have installed := Engine.installed_of_install install
    obtain rfl : p = id := by rw [key, installed.key]
    obtain ⟨tracked, waits⟩ := tracks_of_install sane installed x.standard watches starts
    have sane₁ := installed.sane sane x.standard
    obtain ⟨sane', -, -⟩ := Engine.sane_of_loop sane₁ ran
    obtain ⟨⟨q, tracked'⟩, accepts⟩ := spec_of_loop tracked lawful sane₁ (fun f q called =>
      allowed f _ q (calls p f ⟨e, ⟨feasible₀, p, install⟩, called⟩)) ran
    have ok : status = .ok () := by
      cases status with
      | ok => rfl
      | error cause => simp [done, Operation.outcome] at last
    refine ⟨sane', ⟨_, q, tracked'⟩, fun k _ => ?_⟩
    exact lawful.accepts_of_narrows (sane'.store.wellFormed k) sane'.wellFormed_now
      (sane'.store.narrows_now k) (accepts ok (.inr waits))

/-! ## All propagators of a run -/

/-- Every propagator is tracked for the guarantee that belongs to it. -/
def Covers (G : Rule → Guarantee) (e : Engine Rule) : Prop :=
  ∀ p q, e.propagators.get? p.index = some q → ∃ activity, (G q).Tracks e p activity q

/-- What has to be shown of a family of guarantees: propagators keep their guarantee, they are run
in all domains, and it can be tracked from the time when they are posted. -/
structure Family (G : Rule → Guarantee) : Prop where
  lawful : ∀ q, (G q).Lawful
  allowed : ∀ q q' d, (G q).Allowed q' d
  same : ∀ {q q' activity d values}, (G q).Invariant activity q' d values → G q' = G q
  watches : ∀ (x : Posted) p cell v event, (G (x.blueprint.build p cell)).Watches v event →
    ∃ watch ∈ x.blueprint.watches, watch.Tells v event
  starts : ∀ (x : Posted) (p : PropagatorId) d d' values, x.Valid d → d'.WellFormed →
    d'.integers.size = d.integers.size → d'.intervals.size = d.intervals.size →
    (G (x.blueprint.build p ⟨values.size + 1⟩)).Invariant ⟨values.size⟩
      (x.blueprint.build p ⟨values.size + 1⟩) d' ((1 :: x.blueprint.cells).foldl Table.push values)

variable {G : Rule → Guarantee}

/-- A step that keeps what is tracked about each propagator, and adds none, keeps them covered. -/
theorem Covers.of_forall {e e' : Engine Rule} (covers : Covers G e) (family : Family G)
    (size : e'.propagators.size = e.propagators.size)
    (keeps : ∀ p activity q, e.propagators.get? p.index = some q → (G q).Tracks e p activity q →
      ∃ q', (G q).Tracks e' p activity q') : Covers G e' := by
  intro p q' row'
  have inside := Table.lt_size_of_get? row'
  rw [size] at inside
  obtain ⟨q, row⟩ := Table.exists_get? inside
  obtain ⟨activity, tracked⟩ := covers p q row
  obtain ⟨q'', tracked'⟩ := keeps p activity q row tracked
  have known := tracked'.row
  rw [row'] at known
  cases known
  rw [family.same (tracked'.invariant 0)]
  exact ⟨activity, tracked'⟩

theorem Covers.quietly {e e' : Engine Rule} (covers : Covers G e) (family : Family G) (sane : e.Sane)
    (moved : e.Quietly e') : Covers G e' := by
  refine covers.of_forall family ?_ fun p activity q row tracked =>
    ⟨q, tracked.quietly (family.lawful q) sane moved⟩
  cases moved with
  | newInteger => rfl
  | addInterval => rfl
  | checkpoint => rfl
  | undoTo undone =>
    obtain ⟨_, _, -, -, rfl⟩ := Engine.undoTo_spec undone
    rfl
  | silent same => rw [same.propagators]

/-- Covering depends neither on the agenda nor on the pending events. -/
theorem Covers.withAgenda {e : Engine Rule} (covers : Covers G e) (agenda : Agenda) :
    Covers G { e.dropEvents with agenda } := fun p q row =>
  (covers p q row).imp fun _ tracked => tracked.same rfl rfl (fun _ => rfl) rfl rfl

theorem Covers.call {e e' : Engine Rule} (covers : Covers G e) (family : Family G) (sane : e.Sane)
    {p : PropagatorId} {status : Status} (called : e.call p = .ok (status, e')) : Covers G e' := by
  refine covers.of_forall family (Engine.advances_of_call sane called).size
    fun other activity q _ tracked => ?_
  by_cases same : p = other
  · subst same
    exact (tracks_of_call tracked (family.lawful q) sane (family.allowed ..) called).1
  · exact ⟨q, tracked.call_other (family.lawful q) sane same called⟩

theorem Covers.visit {e e' : Engine Rule} (covers : Covers G e) (family : Family G) (sane : e.Sane)
    {p : PropagatorId} {status : Status} (visited : e.visit p = .ok (status, e')) : Covers G e' :=
  covers.of_forall family (Engine.sane_of_visit sane visited).2.size fun _ _ q _ tracked =>
    (tracks_of_visit tracked (family.lawful q) sane (fun _ _ => family.allowed ..) visited).1

theorem Covers.loop {e e' : Engine Rule} (covers : Covers G e) (family : Family G) (sane : e.Sane)
    {rounds : Nat} {status : Status} (ran : e.loop rounds = .ok (status, e')) : Covers G e' :=
  covers.of_forall family (Engine.sane_of_loop sane ran).2.1.size fun _ _ q _ tracked =>
    (spec_of_loop tracked (family.lawful q) sane (fun _ _ _ _ => family.allowed ..) ran).1

theorem Covers.enters {op : Operation} {s : Solver Rule} {e : Engine Rule}
    (covers : Covers G s.engine) (family : Family G) (sane : s.engine.Sane) (valid : op.Valid s)
    (enters : op.Enters s e) : Covers G e := by
  cases op with
  | decide d =>
    refine covers.of_forall family ?_ fun p activity q row tracked =>
      ⟨q, tracked.enters (family.lawful q) rfl sane enters⟩
    rcases Engine.change_spec enters.2 with ⟨_, -, -, rfl⟩ | ⟨-, -, rfl⟩ <;> rfl
  | propagate => exact enters.2 ▸ covers
  | post x =>
    obtain ⟨feasible, id, install⟩ := enters
    have installed := Engine.installed_of_install install
    intro p q row
    by_cases new : p = id
    · subst new
      have starts (k : Nat) := family.starts x p s.domains (s.engine.domains.past k)
        (s.engine.store.cells.past k) valid (sane.store.wellFormed k)
        (Domains.size_past s.engine.domains k).1 (Domains.size_past s.engine.domains k).2
      simp only [Cells.size_past] at starts
      have tracked := (tracks_of_install sane installed x.standard (family.watches x p _) starts).1
      have known := tracked.row
      rw [row] at known
      cases known
      exact ⟨_, tracked⟩
    · have old : s.engine.propagators.get? p.index = some q := by
        rw [installed.propagators, Table.get?_push, if_neg] at row
        · exact row
        · exact fun same => new (by rw [installed.key]; cases p; simp_all)
      obtain ⟨activity, tracked⟩ := covers p q old
      exact ⟨activity, tracked.install (family.lawful q) sane x.standard installed⟩
  | _ => exact enters.elim

/-- All propagators of a run are covered, unless the problem is known to be infeasible. -/
theorem covers_of_reachable (family : Family G) {c : State} (reachable : Reachable c)
    (feasible : c.solver.isInfeasible = false) : Covers G c.solver.engine := by
  induction reachable with
  | refl =>
    intro p q row
    cases row
  | @next c c' op steps step calls ih =>
    have before := step.feasible feasible
    have sane := sane_of_reachable steps before
    cases effect_of_step step before with
    | infeasible known => simp [known] at feasible
    | quiet _ moved => exact (ih before).quietly family sane moved
    | @propagated e e' status _ _ enters ran _ same =>
      have covers := ((ih before).enters family sane step.valid enters).loop family
        (enters.sane sane) ran
      rcases same with same | same
      · exact same ▸ covers
      · exact same ▸ covers.quietly family
          (Engine.sane_of_loop (enters.sane sane) ran).1 (.silent e'.silently_dropEvents)

/-- At every call of a propagator in a run it is tracked. -/
theorem tracks_of_call_of_reachable (family : Family G) {c : State} (reachable : Reachable c)
    {op : Operation} (valid : op.Valid c.solver) {f : Engine Rule}
    (calls : op.Calls c.solver p f) (row : f.propagators.get? p.index = some q) :
    f.Sane ∧ ∃ activity, (G q).Tracks f p activity q := by
  obtain ⟨e, enters, called⟩ := calls
  have feasible := enters.feasible
  have sane := sane_of_reachable reachable feasible
  have covers := (covers_of_reachable family reachable feasible).enters family sane valid enters
  have advances := (Engine.sane_of_callsWithin (enters.sane sane) called).2
  have inside := Table.lt_size_of_get? row
  rw [advances.size] at inside
  obtain ⟨q₀, row₀⟩ := Table.exists_get? inside
  obtain ⟨activity, tracked⟩ := covers p q₀ row₀
  obtain ⟨sane', q', tracked'⟩ := tracks_of_callsWithin tracked (family.lawful q₀)
    (enters.sane sane) (fun _ _ _ _ => family.allowed ..) called
  have known := tracked'.row
  rw [row] at known
  cases known
  rw [family.same (tracked'.invariant 0)]
  exact ⟨sane', activity, tracked'⟩

end Guarantee

end Scheduling
