import Scheduling.Proofs.Family
import Scheduling.Proofs.FreeRun
import Scheduling.Proofs.Trace

/-!
# Backtracking restores everything

Whatever happens after a checkpoint was opened, returning to it restores the domains, the values of
the reversible cells and the members of the reversible sets, and what was created in the meantime is
back at the value with which it was created. Nothing is pending afterwards.

Results:
* `Engine.Recalls`: two engines agree on what they return to at a checkpoint.
* `Engine.recalls_of_loop`: propagation changes nothing of that.
* `Excursion`: the runs after a checkpoint was opened, and what they create.
* `Excursion.restores`: what the return from an excursion restores.
-/

namespace Scheduling

/-! ## The members of sets -/

/-- The second set is the first one, up to the order of the members that it has according to the
given values of the cells. -/
structure SparseSet.Agrees (values : Table Int) (x y : SparseSet) : Prop where
  size : y.size = x.size
  has : ∀ m : Nat, values.get? x.size.index = some (m : Int) → ∀ i, y.Has m i ↔ x.Has m i

/-- The sets of a propagator. -/
def Rule.sets : Rule → List SparseSet
  | .machine m => [m.active]
  | .resource r => [r.active]
  | _ => []

/-- The sets of the second propagator are those of the first one, up to the order of members. -/
def Rule.Agrees (values : Table Int) (q q' : Rule) : Prop :=
  List.Forall₂ (SparseSet.Agrees values) q.sets q'.sets

namespace SparseSet.Agrees

variable {values values' : Table Int} {x y z : SparseSet}

theorem refl (values : Table Int) (x : SparseSet) : Agrees values x x := ⟨rfl, fun _ _ _ => Iff.rfl⟩

theorem trans (h : Agrees values x y) (h' : Agrees values y z) : Agrees values x z where
  size := h'.size.trans h.size
  has m known i := (h'.has m (by rw [h.size]; exact known) i).trans (h.has m known i)

/-- A walk over a set changes no members of earlier times. -/
theorem of_sweep {done : Nat → Except Fault Bool} {n m : Nat} {c c' : Cells} (valid : x.Valid n)
    (size : c.values.get? x.size.index = some (m : Int)) (le : m ≤ n)
    (older : ∀ k : Nat, values.get? x.size.index = some (k : Int) → m ≤ k)
    (swept : sweep done m x c = .ok (y, c')) : Agrees values x y := by
  obtain ⟨-, same, -, -, -, -, -, -, larger⟩ := sweep_spec valid size le (Nat.le_refl m)
    (fun j i above below => by omega) swept
  exact ⟨same, fun k known i => larger k (older k known) i⟩

end SparseSet.Agrees

namespace Rule

theorem Agrees.refl (values : Table Int) (q : Rule) : q.Agrees values q :=
  List.forall₂_same.2 fun x _ => .refl values x

theorem Agrees.trans {values : Table Int} {a b c : Rule} (h : a.Agrees values b)
    (h' : b.Agrees values c) : a.Agrees values c := by
  unfold Agrees at *
  generalize a.sets = xs, b.sets = ys, c.sets = zs at *
  induction h generalizing zs with
  | nil =>
    cases h'
    exact .nil
  | cons first _ ih =>
    cases h' with
    | cons second rest => exact .cons (first.trans second) (ih _ rest)

/-- A run of a propagator changes no members of earlier times. -/
theorem agrees_of_run {context : Context} {q q' : Rule} {status : Status} {s s' : Store}
    {values : Table Int} {activity : CellId}
    (ran : (Propagator.run context q).run s = .ok ((q', status), s'))
    (invariant : q.guarantee.Invariant activity q s.domains s.cells.values)
    (older : q.Older values s.cells.values) : q.Agrees values q' := by
  cases q with
  | machine x =>
    obtain ⟨x', n, same, fits, -⟩ := invariant
    cases same
    obtain ⟨x', rfl, lifted⟩ := lift_spec ran
    obtain ⟨length, t, counted, dropped, -⟩ := Machine.run_spec lifted
    obtain ⟨active, cells, swept, rfl, -⟩ := Machine.dropAbsent_spec dropped
    rw [SparseSet.length_eq_ok fits.size] at counted
    cases counted
    have less := older x.active.size (by simp [sizes])
    refine .cons (.of_sweep fits.valid fits.size fits.le (fun k known => ?_) swept) .nil
    rw [fits.size, known] at less
    simpa using less
  | resource x =>
    obtain ⟨x', n, span, same, fits, -⟩ := invariant
    cases same
    obtain ⟨x', rfl, lifted⟩ := lift_spec ran
    obtain ⟨start, stop, length, t, -, -, counted, dropped, -⟩ := Resource.run_spec lifted
    obtain ⟨active, cells, swept, rfl, -⟩ := Resource.dropDone_spec dropped
    rw [SparseSet.length_eq_ok fits.size] at counted
    cases counted
    have less := older x.active.size (by simp [sizes])
    refine .cons (.of_sweep fits.valid fits.size fits.le (fun k known => ?_) swept) .nil
    rw [fits.size, known] at less
    simpa using less
  | _ =>
    obtain ⟨x', rfl, -⟩ := lift_spec ran
    exact .nil

end Rule
/-! ## Up to a checkpoint nothing changes -/

namespace Engine

/-- Both engines lie above checkpoint `k`, and what they return to there is the same. -/
structure Recalls (k : Nat) (e e' : Engine Rule) : Prop where
  depth : k < e'.domains.depth
  rows : e'.domains.past k = e.domains.past k
  cells : e'.store.cells.past k = e.store.cells.past k
  size : e'.propagators.size = e.propagators.size
  sets : ∀ p q, e.propagators.get? p = some q →
    ∃ q', e'.propagators.get? p = some q' ∧ q.Agrees (e.store.cells.past k) q'

variable {k : Nat} {e e' : Engine Rule}

theorem Recalls.refl (above : k < e.domains.depth) : e.Recalls k e :=
  ⟨above, rfl, rfl, rfl, fun _ q row => ⟨q, row, .refl _ q⟩⟩

theorem Recalls.trans {e'' : Engine Rule} (h : e.Recalls k e') (h' : e'.Recalls k e'') :
    e.Recalls k e'' where
  depth := h'.depth
  rows := h'.rows.trans h.rows
  cells := h'.cells.trans h.cells
  size := h'.size.trans h.size
  sets p q row := by
    obtain ⟨q', row', agrees⟩ := h.sets p q row
    obtain ⟨q'', row'', agrees'⟩ := h'.sets p q' row'
    rw [h.cells] at agrees'
    exact ⟨q'', row'', agrees.trans agrees'⟩

theorem Silently.recalls (h : e.Silently e') (above : k < e.domains.depth) : e.Recalls k e' where
  depth := by rw [h.depth]; exact above
  rows := h.past k
  cells := by rw [h.cells]
  size := by rw [h.propagators]
  sets p q row := ⟨q, by rw [h.propagators, row], .refl _ q⟩

variable (covers : Guarantee.Covers Rule.guarantee e) (sane : e.Sane) (above : k < e.domains.depth)
include covers sane above

/-- A call writes no trailed value without recording it, and removes no members of earlier times. -/
theorem recalls_of_call {p : PropagatorId} {status : Status} (called : e.call p = .ok (status, e')) :
    e.Recalls k e' := by
  obtain ⟨evolves, -⟩ := evolves_of_call sane called
  obtain ⟨activity, q, q', s', here, row, ran, rfl⟩ := call_spec called
  have below : k < e.store.cells.depth := by
    rw [sane.store.depth]
    exact above
  refine ⟨?_, evolves.domains.past k above, evolves.cells.past k below, Table.size_set .., ?_⟩
  · rw [Engine.domains, evolves.domains.depth]
    exact above
  intro index q₀ row₀
  by_cases same : p.index = index
  · subst same
    rw [row] at row₀
    cases row₀
    obtain ⟨activity', tracked⟩ := covers p q row
    have older := tracked.older k e.store.cells.depth (Nat.le_of_lt below)
    rw [Cells.past_of_depth_le (Nat.le_refl _)] at older
    have known := tracked.here
    rw [here] at known
    cases known
    refine ⟨q', by simp [Table.get?_set, Table.lt_size_of_get? row], Rule.agrees_of_run ran
      (tracked.invariant_now (Rule.family.lawful q) sane) older⟩
  · exact ⟨q₀, by simp [Table.get?_set, same, row₀], .refl _ q₀⟩

/-- Propagation changes nothing of what the engine returns to. -/
theorem recalls_of_loop {rounds : Nat} {status : Status} (ran : e.loop rounds = .ok (status, e')) :
    e.Recalls k e' := by
  have kept := invariant_of_loop
    (I := fun f => e.Recalls k f ∧ Guarantee.Covers Rule.guarantee f)
    (fun sane ⟨recalls, covers⟩ same =>
      ⟨recalls.trans (same.recalls recalls.depth), covers.quietly Rule.family sane (.silent same)⟩)
    (fun sane ⟨recalls, covers⟩ called =>
      ⟨recalls.trans (recalls_of_call covers sane recalls.depth called),
        covers.call Rule.family sane called⟩)
    sane ⟨.refl above, covers⟩ ran
  exact kept.1

end Engine

/-! ## Excursions -/

/-- What a run creates, oldest first, at the values with which it is created. -/
structure Births where
  integers : List IntegerDomain
  intervals : List Interval
  cells : List Int
  propagators : List Rule

namespace Births

/-- Nothing. -/
def none : Births := ⟨[], [], [], []⟩

/-- What is created first, and what is created later. -/
def append (b b' : Births) : Births where
  integers := b.integers ++ b'.integers
  intervals := b.intervals ++ b'.intervals
  cells := b.cells ++ b'.cells
  propagators := b.propagators ++ b'.propagators

@[simp] theorem append_none (b : Births) : b.append none = b := by
  simp [append, none]

end Births

/-- What an operation creates: a variable, or a propagator with its cells, of which the first one
says that it is active. -/
def Operation.births (s : Solver Rule) : Operation → Births
  | newInteger lower upper => ⟨[⟨lower, upper⟩], [], [], []⟩
  | newInterval bounds presence =>
    match Interval.ofBounds bounds presence with
    | .ok row => ⟨[], [row], [], []⟩
    | .error _ => .none
  | post x =>
    if s.isInfeasible then .none
    else ⟨[], [], 1 :: x.blueprint.cells, [x.blueprint.build ⟨s.engine.propagators.size⟩
      ⟨s.engine.store.cells.values.size + 1⟩]⟩
  | _ => .none

theorem Operation.IsPlain.births_eq {op : Operation} (plain : op.IsPlain) (s : Solver Rule) :
    op.births s = .none := by
  cases op with
  | newInteger => exact plain.elim
  | newInterval => exact plain.elim
  | post => exact plain.elim
  | _ => rfl

/-- The runs that never return to checkpoint `k` or below, and what they create. -/
inductive Excursion (k : Nat) : State → Births → State → Prop
  | start {c : State} : Excursion k c .none c
  | next {c c' c'' : State} {b : Births} {op : Operation} : Excursion k c b c' →
    op.Valid c'.solver → op.run c'.solver = .ok c'' → (∀ j, op = .undoTo j → k < j) →
    Excursion k c (b.append (op.births c'.solver)) c''

theorem Excursion.freeRuns {k : Nat} {c c' : State} {b : Births} (h : Excursion k c b c') :
    FreeRuns c c' := by
  induction h with
  | start => exact .refl
  | next _ valid ran _ ih => exact .next ih valid ran

/-- The engine was given rows, and nothing else changed of what it returns to at checkpoint `k`. -/
structure Engine.Grows (k : Nat) (e : Engine Rule) (b : Births) (e' : Engine Rule) : Prop where
  depth : e'.domains.depth = e.domains.depth
  integers : (e'.domains.past k).integers = b.integers.foldl Table.push (e.domains.past k).integers
  intervals :
    (e'.domains.past k).intervals = b.intervals.foldl Table.push (e.domains.past k).intervals
  cells : e'.store.cells.past k = b.cells.foldl Table.push (e.store.cells.past k)
  propagators : e'.propagators = b.propagators.foldl Table.push e.propagators

namespace Engine

variable {e e' : Engine Rule}

theorem grows_newInteger (sane : e.Sane) (row : IntegerDomain) (k : Nat) :
    e.Grows k ⟨[row], [], [], []⟩ (e.newInteger row).2 := by
  have past : (e.newInteger row).2.domains.past k = (e.domains.past k).addInteger row :=
    Domains.past_addInteger sane.store.recordedRows row k
  exact ⟨rfl, by rw [past]; rfl, by rw [past]; rfl, rfl, rfl⟩

theorem grows_newInterval (sane : e.Sane) (row : Interval) (k : Nat) :
    e.Grows k ⟨[], [row], [], []⟩ (e.withDomains (e.domains.addInterval row)) := by
  have past : (e.withDomains (e.domains.addInterval row)).domains.past k =
      (e.domains.past k).addInterval row :=
    Domains.past_addInterval sane.store.recordedRows row k
  exact ⟨rfl, by rw [past]; rfl, by rw [past]; rfl, rfl, rfl⟩

theorem Installed.grows {b : Blueprint Rule} {p : PropagatorId} (h : e.Installed b p e')
    (sane : e.Sane) (k : Nat) :
    e.Grows k ⟨[], [], 1 :: b.cells,
      [b.build ⟨e.propagators.size⟩ ⟨e.store.cells.values.size + 1⟩]⟩ e' := by
  refine ⟨by rw [h.domains], by rw [h.domains]; rfl, by rw [h.domains]; rfl, ?_, ?_⟩
  · rw [h.cells]
    exact (Cells.foldl_grow_spec sane.store.recordedCells _).2.2.2 k
  · rw [h.propagators, h.key]
    rfl

/-- The sizes of the sets of a propagator are cells that exist. -/
theorem Sane.size_lt (sane : e.Sane) {p : Nat} {q : Rule} (row : e.propagators.get? p = some q)
    {x : SparseSet} (mem : x ∈ q.sets) : x.size.index < e.store.cells.values.size := by
  obtain ⟨activity, here⟩ := Table.exists_get? (show p < e.activity.size by
    rw [sane.size]
    exact Table.lt_size_of_get? row)
  have owned : e.owned ⟨p⟩ = activity :: q.cells := owned_eq here row
  refine sane.owned_lt ⟨p⟩ _ (owned ▸ List.mem_cons_of_mem _ (q.sizes_subset ?_))
  cases q <;> simp_all [Rule.sets, Rule.sizes]

end Engine

/-- More cells do not matter for sets that have theirs. -/
theorem Rule.Agrees.foldl_push {q q' : Rule} {values : Table Int} (h : q.Agrees values q')
    (inside : ∀ x ∈ q'.sets, x.size.index < values.size) (more : List Int) :
    q.Agrees (more.foldl Table.push values) q' := by
  unfold Agrees at *
  generalize q.sets = xs, q'.sets = ys at *
  induction h with
  | nil => exact .nil
  | cons first _ ih =>
    refine .cons ⟨first.size, fun m known => first.has m ?_⟩
      (ih fun x mem => inside x (List.mem_cons_of_mem _ mem))
    have lt := inside _ List.mem_cons_self
    rw [first.size] at lt
    rwa [Table.get?_foldl_push, if_pos lt] at known

/-- What the engine returns to at checkpoint `k` is what was there, and what was created. -/
structure Engine.Keeps (k : Nat) (e : Engine Rule) (b : Births) (e' : Engine Rule) : Prop where
  depth : k < e'.domains.depth
  integers : (e'.domains.past k).integers = b.integers.foldl Table.push (e.domains.past k).integers
  intervals :
    (e'.domains.past k).intervals = b.intervals.foldl Table.push (e.domains.past k).intervals
  cells : e'.store.cells.past k = b.cells.foldl Table.push (e.store.cells.past k)
  size : e'.propagators.size = e.propagators.size + b.propagators.length
  sets : ∀ p q, (b.propagators.foldl Table.push e.propagators).get? p = some q →
    ∃ q', e'.propagators.get? p = some q' ∧ q.Agrees (e'.store.cells.past k) q'

namespace Engine.Keeps

variable {k : Nat} {e e' e'' : Engine Rule} {b : Births}

theorem refl (above : k < e.domains.depth) : e.Keeps k .none e :=
  ⟨above, rfl, rfl, rfl, rfl, fun _ q row => ⟨q, row, .refl _ q⟩⟩

/-- Steps that create nothing. -/
theorem recalls (h : e.Keeps k b e') (h' : e'.Recalls k e'') : e.Keeps k b e'' where
  depth := h'.depth
  integers := by rw [h'.rows, h.integers]
  intervals := by rw [h'.rows, h.intervals]
  cells := by rw [h'.cells, h.cells]
  size := by rw [h'.size, h.size]
  sets p q row := by
    obtain ⟨q', row', agrees⟩ := h.sets p q row
    obtain ⟨q'', row'', agrees'⟩ := h'.sets p q' row'
    exact ⟨q'', row'', by rw [h'.cells]; exact agrees.trans agrees'⟩

/-- Steps that create something. -/
theorem grows (h : e.Keeps k b e') (sane : e'.Sane) {b' : Births} (h' : e'.Grows k b' e'') :
    e.Keeps k (b.append b') e'' where
  depth := h'.depth ▸ h.depth
  integers := by rw [h'.integers, h.integers, Births.append, List.foldl_append]
  intervals := by rw [h'.intervals, h.intervals, Births.append, List.foldl_append]
  cells := by rw [h'.cells, h.cells, Births.append, List.foldl_append]
  size := by
    rw [h'.propagators, Table.size_foldl_push, h.size, Births.append, List.length_append]
    omega
  sets p q row := by
    simp only [Births.append, List.foldl_append] at row
    rw [Table.get?_foldl_push, Table.size_foldl_push, ← h.size] at row
    split at row
    · obtain ⟨q', row', agrees⟩ := h.sets p q row
      refine ⟨q', ?_, ?_⟩
      · rw [h'.propagators, Table.get?_foldl_push, if_pos (Table.lt_size_of_get? row'), row']
      · rw [h'.cells]
        exact agrees.foldl_push (fun x mem => by
          rw [Cells.size_past]
          exact sane.size_lt row' mem) _
    · rename_i new
      exact ⟨q, by rw [h'.propagators, Table.get?_foldl_push, if_neg new, row], .refl _ q⟩

theorem checkpoint (h : e.Keeps k b e') : e.Keeps k b e'.checkpoint :=
  h.recalls {
    depth := Nat.lt_succ_of_lt h.depth
    rows := Domains.past_checkpoint ..
    cells := Cells.past_checkpoint ..
    size := rfl
    sets := fun _ q row => ⟨q, row, .refl _ q⟩ }

theorem undoTo (h : e.Keeps k b e') {j : Nat} (above : k < j) (undone : e'.undoTo j = .ok e'') :
    e.Keeps k b e'' := by
  obtain ⟨domains, cells, first, second, rfl⟩ := undoTo_spec undone
  obtain ⟨-, depth, -, past, -⟩ := Domains.undo_spec first
  obtain ⟨-, -, past', -⟩ := Cells.undo_spec second
  have least : min j k = k := Nat.min_eq_right (Nat.le_of_lt above)
  exact h.recalls {
    depth := Nat.lt_of_lt_of_eq above depth.symm
    rows := (past k).trans (by rw [least])
    cells := (past' k).trans (by rw [least])
    size := rfl
    sets := fun _ q row => ⟨q, row, .refl _ q⟩ }

/-- What an operation does, as long as it stays above checkpoint `k`. -/
theorem moves (h : e.Keeps k b e') {op : Operation} {s : Solver Rule} (here : s.engine = e')
    (sane : e'.Sane) (covers : Guarantee.Covers Rule.guarantee e') (valid : op.Valid s)
    (above : ∀ j, op = .undoTo j → k < j) (moves : op.Moves s e'') :
    e.Keeps k (b.append (op.births s)) e'' := by
  subst here
  cases moves with
  | newInteger le => exact h.grows sane (grows_newInteger sane _ k)
  | newInterval consistent =>
    simp only [Operation.births, consistent]
    exact h.grows sane (grows_newInterval sane _ k)
  | checkpoint =>
    rw [show Operation.births s .checkpoint = .none from rfl, Births.append_none]
    exact h.checkpoint
  | undoTo undone =>
    rw [show Operation.births s (.undoTo _) = .none from rfl, Births.append_none]
    exact h.undoTo (above _ rfl) undone
  | refused infeasible =>
    simp only [Operation.births, infeasible, if_true, Births.append_none]
    exact h
  | silent plain same =>
    rw [plain.births_eq, Births.append_none]
    exact h.recalls (same.recalls h.depth)
  | @propagated _ f f' _ status enters ran same =>
    have sane₁ := enters.sane sane
    have covers₁ := covers.enters Rule.family sane valid enters
    have entered : e.Keeps k (b.append (op.births s)) f := by
      cases op with
      | decide d =>
        rw [show Operation.births s (.decide d) = .none from rfl, Births.append_none]
        have evolves := evolves_of_change sane d.writes enters.2
        rcases change_spec enters.2 with ⟨domains, -, -, rfl⟩ | ⟨-, -, rfl⟩
        · exact h.recalls ⟨Nat.lt_of_lt_of_eq h.depth evolves.domains.depth.symm,
            evolves.domains.past k h.depth, rfl, rfl, fun _ q row => ⟨q, row, .refl _ q⟩⟩
        · exact h
      | propagate =>
        rw [show Operation.births s .propagate = .none from rfl, Births.append_none]
        exact enters.2 ▸ h
      | post x =>
        obtain ⟨feasible, id, install⟩ := enters
        simp only [Operation.births, feasible, Bool.false_eq_true, if_false]
        exact h.grows sane ((installed_of_install install).grows sane k)
      | _ => exact enters.elim
    have propagated := entered.recalls (recalls_of_loop covers₁ sane₁ entered.depth ran)
    exact propagated.recalls (same.recalls propagated.depth)

end Engine.Keeps

theorem Excursion.keeps {k : Nat} {c c' : State} {b : Births} (h : Excursion k c b c')
    (accessible : Accessible c) (above : k < c.solver.engine.domains.depth) :
    c.solver.engine.Keeps k b c'.solver.engine := by
  induction h with
  | start => exact .refl above
  | @next c' c'' b op before valid ran stays ih =>
    have accessible' : Accessible c' := accessible.trans before.freeRuns
    exact ih.moves rfl (sane_of_accessible accessible')
      (Guarantee.covers_of_accessible Rule.family accessible') valid stays
      (Operation.moves_of_run ran)

/-! ## The return -/

/-- The second sets have the members of the first ones. -/
def SameMembers (cells : Cells) (xs ys : List SparseSet) : Prop :=
  List.Forall₂ (fun x y => ∃ l l', x.members cells = .ok l ∧ y.members cells = .ok l' ∧
    ∀ i, i ∈ l' ↔ i ∈ l) xs ys

/-- Sets that agree and know how many members they have, have the same members. -/
theorem Rule.Agrees.sameMembers {q q' : Rule} {cells : Cells} (h : q.Agrees cells.values q')
    (sizes : ∀ y ∈ q'.sets, ∃ m : Nat, cells.values.get? y.size.index = some (m : Int)) :
    SameMembers cells q.sets q'.sets := by
  unfold Agrees at h
  generalize q.sets = xs, q'.sets = ys at *
  induction h with
  | nil => exact .nil
  | @cons x y _ _ same _ ih =>
    obtain ⟨m, size⟩ := sizes y List.mem_cons_self
    have size' := size
    rw [same.size] at size'
    refine .cons ⟨_, _, SparseSet.members_eq_ok size', SparseSet.members_eq_ok size, fun i => ?_⟩
      (ih fun y mem => sizes y (List.mem_cons_of_mem _ mem))
    rw [SparseSet.mem_take_iff, SparseSet.mem_take_iff]
    exact same.has m size' i

/-- What the return from an excursion restores: the variables and the cells that were there have the
values of then, those that were created have the values with which they were created, every set has
the members that it had then or when it was created, and nothing is pending. -/
structure Engine.Restores (e : Engine Rule) (b : Births) (e' : Engine Rule) : Prop where
  depth : e'.depth = e.depth
  integers : e'.domains.integers = b.integers.foldl Table.push e.domains.integers
  intervals : e'.domains.intervals = b.intervals.foldl Table.push e.domains.intervals
  cells : e'.store.cells.values = b.cells.foldl Table.push e.store.cells.values
  sets : ∀ p q, (b.propagators.foldl Table.push e.propagators).get? p = some q →
    ∃ q', e'.propagators.get? p = some q' ∧ SameMembers e'.store.cells q.sets q'.sets
  events : e'.domains.events = []
  agenda : e'.agenda.toList = []
  waiting : ∀ p, e'.agenda.isWaiting p = false

namespace Engine

/-- The engine can return to every checkpoint below the current one. -/
theorem exists_undoTo {e : Engine Rule} (sane : e.Sane) {k : Nat} (above : k < e.domains.depth) :
    ∃ e', e.undoTo k = .ok e' := by
  have rows : k < e.store.domains.trail.depth := above
  have cells : k < e.store.cells.trail.depth := by
    have := sane.store.depth
    simp only [Cells.depth, Domains.depth] at this
    omega
  simp only [undoTo, depth, Nat.not_le.2 above, if_false, Store.undoTo, Domains.undoTo,
    Cells.undoTo, Trail.undoTo, rows, cells, if_true, bind, Except.bind, pure, Except.pure]
  exact ⟨_, rfl⟩

/-- The sets of a tracked propagator know how many members they have. -/
theorem exists_size {e : Engine Rule} {p : PropagatorId} {activity : CellId} {q : Rule}
    (tracked : q.guarantee.Tracks e p activity q) (sane : e.Sane) {x : SparseSet}
    (mem : x ∈ q.sets) : ∃ m : Nat, e.store.cells.values.get? x.size.index = some (m : Int) := by
  have invariant := tracked.invariant_now (Rule.family.lawful q) sane
  cases q with
  | machine m =>
    obtain ⟨_, n, same, fits, -⟩ := invariant
    cases same
    cases List.mem_singleton.1 mem
    exact ⟨n, fits.size⟩
  | resource r =>
    obtain ⟨_, n, _, same, fits, -⟩ := invariant
    cases same
    cases List.mem_singleton.1 mem
    exact ⟨n, fits.size⟩
  | _ => cases mem

end Engine

/-- Returning to the checkpoint at which an excursion started restores everything. -/
theorem Excursion.restores {c c₀ c₁ : State} {b : Births} (accessible : Accessible c)
    (opened : Operation.run c.solver .checkpoint = .ok c₀)
    (excursion : Excursion c.solver.engine.depth c₀ b c₁) :
    ∃ c₂, Operation.run c₁.solver (.undoTo c.solver.engine.depth) = .ok c₂ ∧
      c.solver.engine.Restores b c₂.solver.engine := by
  have accessible₀ : Accessible c₀ :=
    .next accessible (show Operation.Valid _ .checkpoint from trivial) opened
  cases opened
  have keeps : c.solver.engine.checkpoint.Keeps c.solver.engine.depth b c₁.solver.engine :=
    excursion.keeps accessible₀ (Nat.lt_succ_self _)
  have accessible₁ : Accessible c₁ := accessible₀.trans excursion.freeRuns
  obtain ⟨e, undone⟩ := Engine.exists_undoTo (sane_of_accessible accessible₁) keeps.depth
  have ran : Operation.run c₁.solver (.undoTo c.solver.engine.depth) =
      .ok ⟨c₁.solver.withEngine e, .done⟩ := by
    refine bind_eq_ok_iff.2 ⟨((), c₁.solver.withEngine e), Session.onEngine_eq_ok_iff.2
      ⟨e, bind_eq_ok_iff.2 ⟨e, undone, rfl⟩, rfl⟩, rfl⟩
  refine ⟨_, ran, ?_⟩
  have accessible₂ : Accessible ⟨c₁.solver.withEngine e, .done⟩ :=
    .next accessible₁ (show Operation.Valid _ (.undoTo _) from trivial) ran
  have sane : e.Sane := sane_of_accessible accessible₂
  have covers : Guarantee.Covers Rule.guarantee e :=
    Guarantee.covers_of_accessible Rule.family accessible₂
  obtain ⟨domains, cells, first, second, rfl⟩ := Engine.undoTo_spec undone
  obtain ⟨-, depth, events, past, -⟩ := Domains.undo_spec first
  obtain ⟨-, depth', past', -⟩ := Cells.undo_spec second
  have rows := past c.solver.engine.depth
  rw [Domains.past_of_depth_le (Nat.le_of_eq depth), Nat.min_self] at rows
  have values := past' c.solver.engine.depth
  rw [Cells.past_of_depth_le (Nat.le_of_eq depth'), Nat.min_self] at values
  have start : c.solver.engine.checkpoint.domains.past c.solver.engine.depth =
      c.solver.engine.domains.rows :=
    (Domains.past_checkpoint ..).trans (Domains.past_depth _)
  have start' : c.solver.engine.checkpoint.store.cells.past c.solver.engine.depth =
      c.solver.engine.store.cells.values :=
    (Cells.past_checkpoint ..).trans (Cells.past_of_depth_le
      (Nat.le_of_eq (sane_of_accessible accessible).store.depth))
  refine ⟨depth, ?_, ?_, ?_, fun p q row => ?_, events, rfl, Agenda.isWaiting_clear _⟩
  · have kept := keeps.integers
    rw [← rows] at kept
    exact kept.trans (by rw [start]; rfl)
  · have kept := keeps.intervals
    rw [← rows] at kept
    exact kept.trans (by rw [start]; rfl)
  · exact values.trans (keeps.cells.trans (by rw [start']))
  · obtain ⟨q', row', agrees⟩ := keeps.sets p q row
    obtain ⟨activity, tracked⟩ := covers ⟨p⟩ q' row'
    rw [← values] at agrees
    exact ⟨q', row', agrees.sameMembers fun y mem => Engine.exists_size tracked sane mem⟩

/-- Two intervals, before the checkpoint. -/
def tripStart : State :=
  .reach [.newInterval ⟨0, 8, 5, 13, 5, 5⟩ .present, .newInterval ⟨2, 2, 7, 7, 5, 5⟩ .optional]

/-- A new variable after the checkpoint. -/
def tripMade : State := (tripStart.follow [.checkpoint]).follow [.newInteger 0 3]

/-- A machine that takes an absent interval out of its active set. -/
def tripEnd : State :=
  (tripMade.follow [.post (.machine [⟨0⟩, ⟨1⟩])]).follow [.decide (.update ⟨1⟩ .absent)]

/-- What is created after the checkpoint. -/
def tripBirths : Births :=
  ⟨[⟨0, 3⟩], [], [1, 2], [.machine ((Machine.blueprint [⟨0⟩, ⟨1⟩]).build ⟨0⟩ ⟨1⟩)]⟩

theorem Excursion.restores_trip : ∃ c₂, Operation.run tripEnd.solver (.undoTo 0) = .ok c₂ ∧
    tripStart.solver.engine.Restores tripBirths c₂.solver.engine := by
  have taken : ((tripStart.next? .checkpoint).isSome,
      ((tripStart.follow [.checkpoint]).next? (.newInteger 0 3)).isSome,
      (tripMade.next? (.post (.machine [⟨0⟩, ⟨1⟩]))).isSome,
      ((tripMade.follow [.post (.machine [⟨0⟩, ⟨1⟩])]).next? (.decide (.update ⟨1⟩ .absent))).isSome,
      tripStart.solver.engine.depth, tripMade.solver.isInfeasible,
      tripMade.solver.engine.propagators.size, tripMade.solver.engine.store.cells.values.size) =
        (true, true, true, true, 0, false, 0, 0) := by cbv
  simp only [Prod.mk.injEq] at taken
  obtain ⟨opened, made, posted, decided, depth, feasible, propagators, cells⟩ := taken
  have births : Operation.births tripMade.solver (.post (.machine [⟨0⟩, ⟨1⟩])) =
      ⟨[], [], [1, 2], [.machine ((Machine.blueprint [⟨0⟩, ⟨1⟩]).build ⟨0⟩ ⟨1⟩)]⟩ := by
    simp only [Operation.births, feasible, propagators, cells]
    rfl
  have first : Excursion 0 (tripStart.follow [.checkpoint]) ⟨[⟨0, 3⟩], [], [], []⟩ tripMade :=
    .next .start (step_follow made).valid (step_follow made).ran (by simp)
  have second := first.next (step_follow posted).valid (step_follow posted).ran (by simp)
  rw [births] at second
  have third : Excursion 0 (tripStart.follow [.checkpoint]) tripBirths tripEnd :=
    second.next (step_follow decided).valid (step_follow decided).ran (by simp)
  rw [← depth] at third
  have trip := Excursion.restores (c := tripStart) (reachable_reach _).accessible
    (step_follow opened).ran third
  rw [depth] at trip
  exact trip

end Scheduling
