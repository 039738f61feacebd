import Scheduling.Proofs.Rest

/-!
# Every propagator is at its fixpoint

After every operation that did not fail, another call of an active propagator succeeds and changes no
domain. The propagator is woken by every change of a row in its scope, its own changes included, so
that its last call before the propagation ended has changed none; and when the search returns to a
checkpoint, both its cells and these rows are again as they were when it was at rest. This does not
depend on the number of variables. Only a resource may meet another sum of heights than before, as
it then takes its activities in another order, and this sum need not fit a word.

Results:
* `Engine.hears_of_loop`: a propagation that succeeds leaves the propagator at rest.
* `State.Settles`: the propagator is at rest for all checkpoints from the one on at which it was
  posted; established by `State.settles_of_post`, and kept by `State.Settles.step`.
* `State.call_changes_nothing`: another call succeeds and changes no domain.
-/

namespace Scheduling

open Propagation

/-! ## Posting -/

namespace Posted

/-- A propagator of the library; the literal of a precedence has two values. -/
def WellPosed (d : Domains) : Posted → Prop
  | precedence p => d.Binary p.before
  | script _ _ _ => False
  | _ => True

variable {x : Posted} {d : Domains} {p : PropagatorId} {cell : CellId}

theorem WellPosed.builtIn (h : x.WellPosed d) : (x.blueprint.build p cell).BuiltIn := by
  cases x with
  | script priority watches lists => exact h.elim
  | _ => trivial

theorem WellPosed.hasBinary (h : x.WellPosed d) : (x.blueprint.build p cell).HasBinary d := by
  cases x with
  | precedence p => exact h
  | _ => trivial

/-- A resource was posted as one with the same activities. -/
theorem exists_of_reorders_resource {r : Resource}
    (h : (x.blueprint.build p cell).Reorders (.resource r)) :
    ∃ xs capacity options, x = .resource xs capacity options ∧ r.activities = .ofList xs := by
  cases x with
  | resource xs capacity options => cases h <;> exact ⟨xs, capacity, options, rfl, rfl⟩
  | _ => cases h

end Posted

/-! ## Propagation -/

namespace Engine

variable {e e' : Engine Rule} {p : PropagatorId} {activity : CellId} {q₀ q q' : Rule} {k : Nat}

/-- The engine has the propagator, which was posted as `q₀`, and tells it of whatever may wake it. -/
structure Hears (e : Engine Rule) (p : PropagatorId) (activity : CellId) (q₀ q : Rule) : Prop where
  here : e.activity.get? p.index = some activity
  row : e.propagators.get? p.index = some q
  builtIn : q.BuiltIn
  reorders : q₀.Reorders q
  wakes : ∀ v event, q.Wakes v event → p ∈ e.watches.affected event v

/-- As of a checkpoint, the propagator is at rest. -/
structure RestsAt (e : Engine Rule) (p : PropagatorId) (activity : CellId) (q : Rule) (k : Nat) :
    Prop where
  binary : q.HasBinary (e.domains.past k)
  rest : q.AtRest ⟨p, activity⟩ (e.domains.past k) (e.store.cells.past k)

/-- The propagator is at rest, or it will be called. -/
def RestsOrAttends (e : Engine Rule) (p : PropagatorId) (activity : CellId) (q : Rule) : Prop :=
  q.AtRest ⟨p, activity⟩ e.domains e.store.cells.values ∨ e.Attends p

theorem Hears.owned_eq (h : e.Hears p activity q₀ q) : e.owned p = activity :: q.cells :=
  Engine.owned_eq h.here h.row

/-- Agenda, pending events and notes do not matter. -/
theorem Hears.same (h : e.Hears p activity q₀ q) (here : e'.activity = e.activity)
    (row : e'.propagators = e.propagators) (watches : e'.watches = e.watches) :
    e'.Hears p activity q₀ q :=
  { h with
    here := by rw [here]; exact h.here
    row := by rw [row]; exact h.row
    wakes := by rw [watches]; exact h.wakes }

theorem RestsAt.transport {j : Nat} (h : e.RestsAt p activity q j)
    (narrows : (e.domains.past j).Narrows (e'.domains.past k))
    (agrees : (e.domains.past j).Agrees q.scope (e'.domains.past k))
    (cells : ∀ cell ∈ activity :: q.cells,
      (e'.store.cells.past k).get? cell.index = (e.store.cells.past j).get? cell.index) :
    e'.RestsAt p activity q k :=
  ⟨h.binary.mono narrows, h.rest.mono agrees cells⟩

/-- The rows in scope stay the same, or the propagator is told of the change. -/
theorem Hears.agrees_or_attends (h : e.Hears p activity q₀ q) (binary : q.HasBinary e.domains)
    {own : List CellId} (evolves : e.store.Evolves own e'.store) (watches : e'.watches = e.watches) :
    e.domains.Agrees q.scope e'.domains ∨ e'.Attends p := by
  obtain ⟨events, pending, reports⟩ := evolves.domains.reported
  rcases Rule.agrees_or_wakes binary evolves.wellFormed evolves.domains.narrows reports with
    agrees | ⟨v, event, mem, wakes⟩
  · exact .inl agrees
  · refine .inr (.inr ⟨v, event, ?_, ?_⟩)
    · show (v, event) ∈ e'.store.domains.events
      rw [pending]
      exact List.mem_append_right _ mem
    · rw [watches]
      exact h.wakes v event wakes

/-- What is at rest stays so, or it is told of the change, while others change the store. -/
theorem restsOrAttends_of_evolves (h : e.Hears p activity q₀ q) (binary : q.HasBinary e.domains)
    {own : List CellId} (evolves : e.store.Evolves own e'.store)
    (disjoint : ∀ cell ∈ e.owned p, cell ∉ own) (watches : e'.watches = e.watches)
    (rest : q.AtRest ⟨p, activity⟩ e.domains e.store.cells.values) :
    e'.RestsOrAttends p activity q := by
  rw [h.owned_eq] at disjoint
  exact (h.agrees_or_attends binary evolves watches).imp_left fun agrees =>
    rest.mono agrees fun cell mem => evolves.cells.others cell (disjoint cell mem)

section Loop

variable (h : e.Hears p activity q₀ q) (covers : Guarantee.Covers Rule.guarantee e) (sane : e.Sane)
include h covers sane

theorem Hears.invariant :
    q.guarantee.Invariant activity q e.domains e.store.cells.values := by
  obtain ⟨cell, tracked⟩ := covers p q h.row
  have known := tracked.here
  rw [h.here] at known
  cases known
  exact tracked.invariant_now (Rule.family.lawful q) sane

/-- A call of the propagator that succeeds leaves it at rest, or tells it of its own changes. -/
theorem hears_of_call {status : Status} (binary : q.HasBinary e.domains)
    (called : e.call p = .ok (status, e')) :
    ∃ q', q.Reorders q' ∧ e'.Hears p activity q₀ q' ∧
      (status = .ok () → e'.RestsOrAttends p activity q') := by
  have invariant := h.invariant covers sane
  obtain ⟨evolves, -⟩ := evolves_of_call sane called
  obtain ⟨activity', q₀, q', s', here, row, ran, rfl⟩ := call_spec called
  rw [h.here] at here
  rw [h.row] at row
  cases here
  cases row
  have nodup := sane.owned_nodup p
  rw [h.owned_eq] at nodup
  have reorders := Rule.reorders_of_run h.builtIn ran
  have hears : Hears { e with store := s', propagators := e.propagators.set p.index q' }
      p activity q₀ q' :=
    ⟨h.here, by simp [Table.get?_set, Table.lt_size_of_get? h.row], reorders.builtIn h.builtIn,
      h.reorders.trans reorders, fun v event wakes => h.wakes v event (reorders.wakes wakes)⟩
  refine ⟨q', reorders, hears, ?_⟩
  rintro rfl
  have evolves : e.store.Evolves (e.owned p) (Engine.store { e with
    store := s', propagators := e.propagators.set p.index q' }) := evolves
  exact (h.agrees_or_attends binary evolves rfl).imp_left fun agrees =>
    Rule.atRest_of_run sane.wellFormed_now h.builtIn invariant nodup ran agrees

theorem hears_of_visit {other : PropagatorId} {status : Status} (binary : q.HasBinary e.domains)
    (visited : e.visit other = .ok (status, e')) :
    ∃ q', q.Reorders q' ∧ e'.Hears p activity q₀ q' ∧ (status = .ok () →
      q.AtRest ⟨p, activity⟩ e.domains e.store.cells.values ∨ other = p ∨
        e.agenda.isWaiting p = true → e'.RestsOrAttends p activity q') := by
  rcases visit_spec visited with ⟨idle, rfl, rfl⟩ | ⟨-, e₁, called, done, failed⟩
  · -- The propagator is switched off.
    refine ⟨q, .refl q, h, fun _ => ?_⟩
    rintro (rest | rfl | waits)
    · exact .inl rest
    · obtain ⟨cell, value, here, found, off⟩ := isActive_eq_ok idle
      rw [h.here] at here
      cases here
      have zero : value = 0 := by simpa using off
      exact .inl (.inl (by rw [found, zero]))
    · exact .inr (.inl waits)
  · have after : ∃ q', q.Reorders q' ∧ e₁.Hears p activity q₀ q' ∧ (status = .ok () →
        q.AtRest ⟨p, activity⟩ e.domains e.store.cells.values ∨ other = p ∨
          e.agenda.isWaiting p = true → e₁.RestsOrAttends p activity q') := by
      by_cases same : other = p
      · subst same
        obtain ⟨q', reorders, hears, rest⟩ := hears_of_call h covers sane binary called
        exact ⟨q', reorders, hears, fun ok _ => rest ok⟩
      · obtain ⟨evolves, -⟩ := evolves_of_call sane called
        obtain ⟨_, _, q₁, s', -, row, -, rfl⟩ := call_spec called
        have index : other.index ≠ p.index := fun eq => same (by cases other; cases p; simp_all)
        refine ⟨q, .refl q, { h with row := ?_ }, fun _ => ?_⟩
        · simp only [Table.get?_set, index, if_false]
          exact h.row
        · rintro (rest | eq | waits)
          · exact restsOrAttends_of_evolves h binary evolves
              (fun cell mem mem' => same (sane.owned_disjoint other p cell mem' mem)) rfl rest
          · exact absurd eq same
          · exact .inr (.inl waits)
    obtain ⟨q', reorders, hears, rest⟩ := after
    cases status with
    | ok =>
      rw [done rfl]
      exact ⟨q', reorders, hears, rest⟩
    | error cause =>
      obtain ⟨m, rfl⟩ := failed ⟨cause, rfl⟩
      exact ⟨q', reorders, hears.same rfl rfl rfl, fun ok => by cases ok⟩

/-- A propagation that succeeds leaves the propagator at rest, if it was so or waited. -/
theorem hears_of_loop {rounds : Nat} {status : Status} (binary : q.HasBinary e.domains)
    (ran : e.loop rounds = .ok (status, e')) :
    ∃ q', q.Reorders q' ∧ e'.Hears p activity q₀ q' ∧ (status = .ok () →
      e.RestsOrAttends p activity q → q'.AtRest ⟨p, activity⟩ e'.domains e'.store.cells.values) := by
  induction rounds generalizing e q with
  | zero => cases ran
  | succ rounds ih =>
    obtain ⟨e₁, notified, rest⟩ := bind_eq_ok_iff.1 ran
    cases popped : e₁.agenda.pop with
    | mk taken agenda =>
      obtain ⟨sane₁, advances, eq, none, some⟩ := round_spec sane notified popped
      have h₁ : Hears { e₁ with agenda } p activity q₀ q := by
        rw [eq]
        exact h.same rfl rfl rfl
      have covers₁ : Guarantee.Covers Rule.guarantee { e₁ with agenda } := by
        rw [eq]
        exact covers.withAgenda agenda
      have rest₁ (rest : q.AtRest ⟨p, activity⟩ e.domains e.store.cells.values) :
          q.AtRest ⟨p, activity⟩ ({ e₁ with agenda } : Engine Rule).domains
            ({ e₁ with agenda } : Engine Rule).store.cells.values := by
        rw [eq]
        exact rest.mono (.of_eq rfl rfl) fun _ _ => rfl
      rw [popped] at rest
      cases taken with
      | none =>
        cases rest
        refine ⟨q, .refl q, h₁, fun _ start => rest₁ (start.resolve_right ?_)⟩
        rintro (waits | pending)
        · simp [(none rfl p).1] at waits
        · exact (none rfl p).2 pending
      | some other =>
        obtain ⟨⟨status', e₂⟩, visited, last⟩ := bind_eq_ok_iff.1 rest
        obtain ⟨sane₂, advances₂⟩ := sane_of_visit sane₁ visited
        have binary₁ := binary.mono advances.narrows
        obtain ⟨q₂, reorders, h₂, next⟩ := hears_of_visit h₁ covers₁ sane₁ binary₁ visited
        cases status' with
        | error cause =>
          cases last
          exact ⟨q₂, reorders, h₂, fun ok => by cases ok⟩
        | ok =>
          obtain ⟨q₃, reorders', h₃, ends⟩ := ih h₂ (covers₁.visit Rule.family sane₁ visited) sane₂
            (reorders.hasBinary (binary₁.mono advances₂.narrows)) last
          refine ⟨q₃, reorders.trans reorders', h₃, fun ok start => ends ok (next rfl ?_)⟩
          by_cases same : other = p
          · exact .inr (.inl same)
          · exact start.imp rest₁ fun attends =>
              .inr ((some other rfl p).2 ⟨fun eq => same eq.symm, attends⟩)

end Loop

/-! ## The states of checkpoints -/

/-- At the current checkpoint nothing but the rows and the values of the cells matters. -/
theorem restsAt_of_depth_le (sane : e.Sane) (above : e.domains.depth ≤ k) :
    e.RestsAt p activity q k ↔ q.HasBinary e.domains ∧
      q.AtRest ⟨p, activity⟩ e.domains e.store.cells.values := by
  have rows := Domains.past_of_depth_le above
  have values : e.store.cells.past k = e.store.cells.values :=
    Cells.past_of_depth_le (Nat.le_trans (Nat.le_of_eq sane.store.depth) above)
  constructor
  · rintro ⟨binary, rest⟩
    rw [rows] at binary rest
    rw [values] at rest
    exact ⟨binary.mono ⟨(Domains.Narrows.refl _).integer, (Domains.Narrows.refl _).interval⟩,
      rest.mono (.of_eq rfl rfl) fun _ _ => rfl⟩
  · rintro ⟨binary, rest⟩
    refine ⟨?_, ?_⟩
    · rw [rows]
      exact binary.mono ⟨(Domains.Narrows.refl _).integer, (Domains.Narrows.refl _).interval⟩
    · rw [rows, values]
      exact rest.mono (.of_eq rfl rfl) fun _ _ => rfl

end Engine

theorem Domains.agrees_addInteger (d : Domains) (row : IntegerDomain) (scope : List Watched) :
    d.Agrees scope (d.addInteger row) :=
  ⟨fun _ _ _ found => integer_addInteger found row, fun _ _ _ found => found⟩

theorem Domains.agrees_addInterval (d : Domains) (row : Interval) (scope : List Watched) :
    d.Agrees scope (d.addInterval row) :=
  ⟨fun _ _ _ found => found, fun _ _ _ found => interval_addInterval found row⟩

/-! ## Operations -/

namespace Engine

variable {e e' : Engine Rule} {p : PropagatorId} {activity : CellId} {q₀ q : Rule} {level k : Nat}

theorem Hears.quietly (h : e.Hears p activity q₀ q) (moved : e.Quietly e') :
    e'.Hears p activity q₀ q := by
  cases moved with
  | newInteger => exact h.same rfl rfl rfl
  | addInterval => exact h.same rfl rfl rfl
  | checkpoint => exact h.same rfl rfl rfl
  | undoTo undone =>
    obtain ⟨_, _, -, -, rfl⟩ := undoTo_spec undone
    exact h.same rfl rfl rfl
  | silent same => exact h.same same.activity same.propagators same.watches

/-- What was at rest at a checkpoint is so again with the return to it. -/
theorem RestsAt.undoTo {j : Nat} (h : e.RestsAt p activity q (min j k))
    (undone : e.undoTo j = .ok e') : e'.RestsAt p activity q k := by
  obtain ⟨domains, cells, first, second, rfl⟩ := undoTo_spec undone
  obtain ⟨-, -, -, past, -⟩ := Domains.undo_spec first
  obtain ⟨-, -, past', -⟩ := Cells.undo_spec second
  refine ⟨?_, ?_⟩
  · show q.HasBinary (domains.past k)
    rw [past]
    exact h.binary
  · show q.AtRest ⟨p, activity⟩ (domains.past k) (cells.past k)
    rw [past, past']
    exact h.rest

/-- A step without propagation. -/
theorem restsAt_of_quietly (sane : e.Sane) (moved : e.Quietly e')
    (rests : ∀ k, level ≤ k → e.RestsAt p activity q k) (stays : level ≤ e'.domains.depth)
    (above : level ≤ k) : e'.RestsAt p activity q k := by
  have before := rests k above
  cases moved with
  | @newInteger row =>
    have past : (e.newInteger row).2.domains.past k = (e.domains.past k).addInteger row :=
      Domains.past_addInteger sane.store.recordedRows row k
    refine before.transport ?_ ?_ fun _ _ => rfl
    · rw [past]
      exact Domains.narrows_addInteger _ _
    · rw [past]
      exact Domains.agrees_addInteger ..
  | @addInterval row =>
    have past : (e.withDomains (e.domains.addInterval row)).domains.past k =
        (e.domains.past k).addInterval row :=
      Domains.past_addInterval sane.store.recordedRows row k
    refine before.transport ?_ ?_ fun _ _ => rfl
    · rw [past]
      exact Domains.narrows_addInterval _ _
    · rw [past]
      exact Domains.agrees_addInterval ..
  | checkpoint =>
    have rows : e.checkpoint.domains.past k = e.domains.past k := Domains.past_checkpoint ..
    have cells : e.checkpoint.store.cells.past k = e.store.cells.past k := Cells.past_checkpoint ..
    refine ⟨?_, ?_⟩
    · rw [rows]
      exact before.binary
    · rw [rows, cells]
      exact before.rest
  | @undoTo _ j undone =>
    have depth : e'.domains.depth = j := by
      obtain ⟨_, _, first, -, rfl⟩ := undoTo_spec undone
      exact (Domains.undo_spec first).2.1
    exact (rests (min j k) (by omega)).undoTo undone
  | silent same =>
    refine ⟨?_, ?_⟩
    · rw [same.past]
      exact before.binary
    · rw [same.past, same.cells]
      exact before.rest

section Enters

variable {s : Solver Rule} {op : Operation} (h : s.engine.Hears p activity q₀ q)
  (enters : op.Enters s e)
include h enters

theorem hears_of_enters : e.Hears p activity q₀ q := by
  cases op with
  | decide d =>
    rcases change_spec enters.2 with ⟨_, -, -, rfl⟩ | ⟨-, -, rfl⟩
    · exact h.same rfl rfl rfl
    · exact h
  | propagate => exact enters.2 ▸ h
  | post x =>
    obtain ⟨-, id, install⟩ := enters
    have installed := installed_of_install install
    refine ⟨?_, ?_, h.builtIn, h.reorders, fun v event wakes => ?_⟩
    · rw [installed.activity, Table.get?_push,
        if_neg (Nat.ne_of_lt (Table.lt_size_of_get? h.here))]
      exact h.here
    · rw [installed.propagators, Table.get?_push,
        if_neg (Nat.ne_of_lt (Table.lt_size_of_get? h.row))]
      exact h.row
    · rw [installed.watches, WatchLists.mem_affected_foldl_register]
      exact .inl (h.wakes v event wakes)
  | _ => exact enters.elim

variable (sane : s.engine.Sane)
include sane

/-- Before propagation the states of earlier checkpoints stay as they are. -/
theorem restsAt_of_enters (rests : s.engine.RestsAt p activity q k)
    (below : k < s.engine.domains.depth) : e.RestsAt p activity q k := by
  obtain ⟨-, past⟩ := Guarantee.past_of_enters sane enters
  refine rests.transport (past k below ▸ .refl _) (past k below ▸ .refl ..) fun cell mem => ?_
  cases op with
  | decide d =>
    have evolves := evolves_of_change sane d.writes enters.2
    rw [evolves.cells.past k (Nat.lt_of_lt_of_eq below sane.store.depth.symm)]
  | propagate => rw [enters.2]
  | post x =>
    obtain ⟨-, id, install⟩ := enters
    rw [← h.owned_eq] at mem
    rw [(installed_of_install install).cells,
      (Cells.foldl_grow_spec sane.store.recordedCells _).2.2.2, Table.get?_foldl_push,
      Cells.size_past, if_pos (sane.owned_lt p cell mem)]
  | _ => exact enters.elim

/-- Where propagation starts, the propagator is still at rest or will be called. -/
theorem restsOrAttends_of_enters (binary : q.HasBinary s.engine.domains)
    (rest : q.AtRest ⟨p, activity⟩ s.engine.domains s.engine.store.cells.values) :
    q.HasBinary e.domains ∧ e.RestsOrAttends p activity q := by
  cases op with
  | decide d =>
    have evolves := evolves_of_change sane d.writes enters.2
    have watches : e.watches = s.engine.watches := by
      rcases change_spec enters.2 with ⟨_, -, -, rfl⟩ | ⟨-, -, rfl⟩ <;> rfl
    exact ⟨binary.mono evolves.domains.narrows,
      restsOrAttends_of_evolves h binary evolves (by simp) watches rest⟩
  | propagate => exact enters.2 ▸ ⟨binary, .inl rest⟩
  | post x =>
    obtain ⟨-, id, install⟩ := enters
    have installed := installed_of_install install
    refine ⟨installed.domains ▸ binary, .inl (rest.mono (installed.domains ▸ .refl ..) ?_)⟩
    intro cell mem
    rw [← h.owned_eq] at mem
    rw [installed.cells, (Cells.foldl_grow_spec sane.store.recordedCells _).2.2.1, Table.get?_foldl_push,
      if_pos (sane.owned_lt p cell mem)]
  | _ => exact enters.elim

end Enters

end Engine

/-! ## Runs -/

/-- The propagator is at rest for all checkpoints from the given one on, and for the current state,
unless a propagation has failed there. -/
structure State.Settles (level : Nat) (p : PropagatorId) (q₀ : Rule) (c : State) : Prop where
  level_le : level ≤ c.solver.engine.domains.depth
  rests : ∃ activity q, c.solver.engine.Hears p activity q₀ q ∧ ∀ k, level ≤ k →
    (c.last = .failed → k < c.solver.engine.domains.depth) → c.solver.engine.RestsAt p activity q k

section Steps

variable {level : Nat} {p : PropagatorId} {activity : CellId} {q₀ q : Rule} {c c' : State}
  {e e' : Engine Rule}

/-- A propagation that leads to the next state. -/
theorem State.settles_of_loop {rounds : Nat} {status : Status} (hears : e.Hears p activity q₀ q)
    (covers : Guarantee.Covers Rule.guarantee e) (sane : e.Sane)
    (level_le : level ≤ e.domains.depth) (binary : q.HasBinary e.domains)
    (before : ∀ k, level ≤ k → k < e.domains.depth → e.RestsAt p activity q k)
    (start : e.RestsOrAttends p activity q) (ran : e.loop rounds = .ok (status, e'))
    (last : c.last = Operation.outcome status)
    (same : c.solver.engine = e' ∨ c.solver.engine = e'.dropEvents) : c.Settles level p q₀ := by
  obtain ⟨sane', advances, -⟩ := Engine.sane_of_loop sane ran
  obtain ⟨q', reorders, hears', ends⟩ := Engine.hears_of_loop hears covers sane binary ran
  -- Dropping the events changes nothing that matters here.
  obtain ⟨hears'', depth, moved⟩ : c.solver.engine.Hears p activity q₀ q' ∧
      c.solver.engine.domains.depth = e'.domains.depth ∧
      ∀ k, e'.RestsAt p activity q' k → c.solver.engine.RestsAt p activity q' k := by
    rcases same with same | same
    · rw [same]
      exact ⟨hears', rfl, fun _ => id⟩
    · rw [same]
      exact ⟨hears'.same rfl rfl rfl, rfl, fun k rests => ⟨rests.binary, rests.rest⟩⟩
  refine ⟨by rw [depth, advances.depth]; exact level_le, activity, q', hears'', fun k above below =>
    moved k ?_⟩
  by_cases earlier : k < e.domains.depth
  · have rests := before k above earlier
    have recalls := Engine.recalls_of_loop covers sane earlier ran
    obtain ⟨q₁, row, agrees⟩ := recalls.sets p.index q hears.row
    rw [hears'.row] at row
    cases row
    refine ⟨?_, ?_⟩
    · rw [recalls.rows]
      exact reorders.hasBinary rests.binary
    · rw [recalls.rows, recalls.cells]
      exact rests.rest.of_agrees reorders agrees
  · have ok : status = .ok () := by
      cases status with
      | ok => rfl
      | error cause =>
        have := below last
        rw [depth, advances.depth] at this
        omega
    refine (Engine.restsAt_of_depth_le sane' (by rw [advances.depth]; omega)).2 ⟨?_, ends ok start⟩
    exact reorders.hasBinary (binary.mono advances.narrows)

/-- Once posted, a propagator is at rest whenever its first propagation has succeeded. -/
theorem State.settles_of_post {x : Posted} (reachable : Reachable c) (step : Step (.post x) c c')
    (wellPosed : x.WellPosed c.solver.domains) (feasible : c'.solver.isInfeasible = false) :
    c'.Settles c.solver.engine.domains.depth ⟨c.solver.engine.propagators.size⟩
      (x.blueprint.build ⟨c.solver.engine.propagators.size⟩
        ⟨c.solver.engine.store.cells.values.size + 1⟩) := by
  have feasible₀ := step.feasible feasible
  have sane := sane_of_reachable reachable feasible₀
  rcases step.posted feasible₀ with known | ⟨-, id, e, status, install, ran, last⟩
  · simp [known] at feasible
  have installed := Engine.installed_of_install install
  have enters : (Operation.post x).Enters c.solver e := ⟨feasible₀, id, install⟩
  have covers := (Guarantee.covers_of_reachable Rule.family reachable feasible₀).enters Rule.family
    sane step.valid enters
  have hears : e.Hears id ⟨c.solver.engine.store.cells.values.size⟩
      (x.blueprint.build id ⟨c.solver.engine.store.cells.values.size + 1⟩)
      (x.blueprint.build id ⟨c.solver.engine.store.cells.values.size + 1⟩) := by
    refine ⟨?_, ?_, wellPosed.builtIn, .refl _, fun v event wakes => ?_⟩
    · rw [installed.activity, Table.get?_push, installed.key, if_pos sane.size.symm]
    · rw [installed.propagators, Table.get?_push, installed.key]
      simp
    · rw [installed.watches, WatchLists.mem_affected_foldl_register]
      exact .inr ⟨Posted.tells_of_wakes wakes, rfl⟩
  have domains := installed.domains
  rw [← installed.key]
  refine State.settles_of_loop hears covers (enters.sane sane) (by rw [domains]) ?_
    (fun k above below => ?_) (.inr (.inl ?_)) ran last (.inl rfl)
  · rw [domains]
    exact wellPosed.hasBinary
  · rw [domains] at below
    omega
  · rw [installed.waits sane.agenda]
    exact .inr rfl

/-- An operation that does not return below the level leaves the propagator at rest. -/
theorem State.Settles.step {op : Operation} (h : c.Settles level p q₀) (reachable : Reachable c)
    (step : Step op c c') (stays : level ≤ c'.solver.engine.domains.depth)
    (feasible : c'.solver.isInfeasible = false) : c'.Settles level p q₀ := by
  have feasible₀ := step.feasible feasible
  have sane := sane_of_reachable reachable feasible₀
  obtain ⟨activity, q, hears, rests⟩ := h.rests
  cases effect_of_step step feasible₀ with
  | infeasible known => simp [known] at feasible
  | quiet _ moved last back =>
    refine ⟨stays, activity, q, hears.quietly moved, fun k above _ => ?_⟩
    by_cases failed : c.last = .failed
    · obtain ⟨j, undone⟩ := back failed
      obtain ⟨below, depth⟩ : j < c.solver.engine.domains.depth ∧
          c'.solver.engine.domains.depth = j := by
        obtain ⟨_, _, first, -, eq⟩ := Engine.undoTo_spec undone
        rw [eq]
        exact ⟨(Domains.undo_spec first).1, (Domains.undo_spec first).2.1⟩
      exact (rests (min j k) (by omega) fun _ => by omega).undoTo undone
    · exact Engine.restsAt_of_quietly sane moved
        (fun k above => rests k above fun eq => absurd eq failed) stays above
  | propagated _ start enters ran last same =>
    have rests (k : Nat) (above : level ≤ k) := rests k above fun eq => absurd eq start
    obtain ⟨depth, -⟩ := Guarantee.past_of_enters sane enters
    obtain ⟨binary, rest⟩ :=
      (Engine.restsAt_of_depth_le sane (Nat.le_refl _)).1 (rests _ h.level_le)
    obtain ⟨binary', begins⟩ := Engine.restsOrAttends_of_enters hears enters sane binary rest
    have covers := (Guarantee.covers_of_reachable Rule.family reachable feasible₀).enters
      Rule.family sane step.valid enters
    refine State.settles_of_loop (Engine.hears_of_enters hears enters) covers (enters.sane sane)
      (by rw [depth]; exact h.level_le) binary' (fun k above below => ?_) begins ran last same
    rw [depth] at below
    exact Engine.restsAt_of_enters hears enters sane (rests k above) below

end Steps

/-- The runs that do not leave the level of a checkpoint. -/
inductive RunsAbove (level : Nat) : State → State → Prop
  | refl {c : State} : RunsAbove level c c
  | next {c c' c'' : State} {op : Operation} : RunsAbove level c c' → Step op c' c'' →
    level ≤ c''.solver.engine.domains.depth → RunsAbove level c c''

theorem RunsAbove.runs {level : Nat} {c c' : State} (h : RunsAbove level c c') : Runs c c' := by
  induction h with
  | refl => exact .refl
  | next _ step _ ih => exact .next ih step fun _ _ _ => trivial

/-- A propagator that has come to rest is so as long as the search does not leave its level. -/
theorem State.Settles.runs {level : Nat} {p : PropagatorId} {q₀ : Rule} {c c' : State}
    (h : c.Settles level p q₀) (reachable : Reachable c) (runs : RunsAbove level c c')
    (feasible : c'.solver.isInfeasible = false) : c'.Settles level p q₀ := by
  induction runs with
  | refl => exact h
  | next before step stays ih =>
    exact (ih (step.feasible feasible)).step (reachable.trans before.runs) step stays feasible

/-- In every state that a run reaches without leaving the level on which a propagator was posted, and
in which the problem is not known to be infeasible and the last operation did not fail: if the
propagator is active, another call of it succeeds and changes no domain. Only a resource may stop
instead, if some sum of heights of its activities does not fit a word: it now sums up their loads in
another order, and such a sum may be met on the way. -/
theorem State.call_changes_nothing {c₀ c₁ c : State} {x : Posted} (reachable : Reachable c₀)
    (posted : Step (.post x) c₀ c₁) (wellPosed : x.WellPosed c₀.solver.domains)
    (runs : RunsAbove c₀.solver.engine.domains.depth c₁ c)
    (feasible : c.solver.isInfeasible = false) (last : c.last ≠ .failed)
    (active : c.solver.engine.isActive ⟨c₀.solver.engine.propagators.size⟩ = .ok true) :
    (∃ e, c.solver.engine.call ⟨c₀.solver.engine.propagators.size⟩ = .ok (.ok (), e) ∧
      e.domains = c.solver.domains) ∨
      ∃ xs capacity options, x = .resource xs capacity options ∧
        ¬ Activity.SumsHold c.solver.domains xs ∧
        c.solver.engine.call ⟨c₀.solver.engine.propagators.size⟩ = .error .additionOverflow := by
  have reachable₁ : Reachable c₁ := .next reachable posted fun _ _ _ => trivial
  have settled := (settles_of_post reachable posted wellPosed (runs.runs.feasible feasible)).runs
    reachable₁ runs feasible
  have sane := sane_of_reachable (reachable₁.trans runs.runs) feasible
  have covers := Guarantee.covers_of_reachable Rule.family (reachable₁.trans runs.runs) feasible
  obtain ⟨activity, q, hears, rests⟩ := settled.rests
  obtain ⟨-, rest⟩ := (Engine.restsAt_of_depth_le sane (Nat.le_refl _)).1
    (rests _ settled.level_le fun failed => absurd failed last)
  obtain ⟨cell, value, here, found, on⟩ := Engine.isActive_eq_ok active
  rw [hears.here] at here
  cases here
  have nodup := sane.owned_nodup ⟨c₀.solver.engine.propagators.size⟩
  rw [hears.owned_eq] at nodup
  have switchedOn : c.solver.engine.store.cells.values.get? activity.index ≠ some 0 := by
    rw [found]
    rintro ⟨rfl⟩
    simp at on
  rcases @Rule.exists_run_of_atRest ⟨_, activity⟩ q _ sane.wellFormed_now hears.builtIn
    (hears.invariant covers sane) nodup rest switchedOn (Table.lt_size_of_get? found) with
    ⟨q', s', ran, same⟩ | ⟨r, rfl, beyond, overflows⟩
  · exact .inl ⟨_, Engine.call_of_run hears.here hears.row ran, same⟩
  · obtain ⟨xs, capacity, options, rfl, activities⟩ :=
      Posted.exists_of_reorders_resource hears.reorders
    have all : r.activities.toList = xs := by simp [activities, Table.ofList, Table.toList]
    exact .inr ⟨xs, capacity, options, rfl, all ▸ beyond,
      Engine.call_of_fault hears.here hears.row overflows⟩

/-! ## A propagator that is called again -/

namespace Fixpoint

/-- Two present intervals of length `5`, beyond a checkpoint. -/
def start : State :=
  .reach [.newInterval ⟨0, 3, 5, 8, 5, 5⟩ .present, .newInterval ⟨0, 9, 5, 14, 5, 5⟩ .present,
    .checkpoint]

/-- They may not overlap. -/
def posted : State := start.follow [.post (.machine [⟨0⟩, ⟨1⟩])]

/-- Beyond another checkpoint, -/
def opened : State := posted.follow [.checkpoint]

/-- the first one starts no earlier than `2`, -/
def decided : State := opened.follow [.decide (.update ⟨0⟩ (.bound .startMin 2))]

/-- and the search returns. -/
def returned : State := decided.follow [.undoTo 1]

end Fixpoint

open Fixpoint in
theorem State.call_changes_nothing_returned :
    decided.solver.domains.interval ⟨1⟩ = .ok ⟨⟨7, 9, 12, 14, 5, 5⟩, .present⟩ ∧
    returned.solver.domains.interval ⟨1⟩ = .ok ⟨⟨5, 9, 10, 14, 5, 5⟩, .present⟩ ∧
    ∃ e, returned.solver.engine.call ⟨0⟩ = .ok (.ok (), e) ∧ e.domains = returned.solver.domains := by
  have steps : ((start.next? (.post (.machine [⟨0⟩, ⟨1⟩]))).isSome,
      (posted.next? .checkpoint).isSome,
      (opened.next? (.decide (.update ⟨0⟩ (.bound .startMin 2)))).isSome,
      (decided.next? (.undoTo 1)).isSome) = (true, true, true, true) := by cbv
  have known : (start.solver.engine.propagators.size, start.solver.engine.domains.depth,
      opened.solver.engine.domains.depth, decided.solver.engine.domains.depth,
      returned.solver.engine.domains.depth) = (0, 1, 2, 2, 1) := by cbv
  have final : (decided.solver.domains.interval ⟨1⟩, returned.solver.domains.interval ⟨1⟩,
      returned.solver.isInfeasible, returned.last, returned.solver.engine.isActive ⟨0⟩) =
        (.ok ⟨⟨7, 9, 12, 14, 5, 5⟩, .present⟩, .ok ⟨⟨5, 9, 10, 14, 5, 5⟩, .present⟩, false, .done,
          .ok true) := by cbv
  simp only [Prod.mk.injEq] at steps known final
  obtain ⟨first, second, third, fourth⟩ := steps
  obtain ⟨size, level, depth₁, depth₂, depth₃⟩ := known
  obtain ⟨before, after, feasible, last, active⟩ := final
  have post : Step (.post (.machine [⟨0⟩, ⟨1⟩])) start posted := step_follow first
  have step₁ : Step .checkpoint posted opened := step_follow second
  have step₂ : Step (.decide (.update ⟨0⟩ (.bound .startMin 2))) opened decided := step_follow third
  have step₃ : Step (.undoTo 1) decided returned := step_follow fourth
  have runs : RunsAbove start.solver.engine.domains.depth posted returned :=
    .next (.next (.next .refl step₁ (by omega)) step₂ (by omega)) step₃ (by omega)
  have reachable : Reachable start := reachable_reach _
  have again := State.call_changes_nothing reachable post trivial runs feasible
    (by rw [last]; decide) (by rw [size]; exact active)
  rw [size] at again
  refine ⟨before, after, again.resolve_right ?_⟩
  rintro ⟨_, _, _, impossible, -⟩
  cases impossible

end Scheduling
