import Mathlib.Data.List.Forall2
import Mathlib.Logic.Relation
import Scheduling.Proofs.Narrowing

/-!
# Computations on the store

Two judgements on what a propagator does. `Propagation.Performs` holds of all its outcomes: the store
that is left is one that steps of a context lead to, so that the domains evolve and of the cells only
the listed ones are written. `Propagation.Returns` is about one start: the computation neither faults
nor fails there, and its result and the store that it leaves are as stated. Both are built up along
the steps of a computation.

Results:
* `Store.Moves`, `Store.Reaches`: the steps that a context offers, and what they lead to.
* `Store.Reaches.evolves`: such steps are an evolution of the store.
* `Propagation.performs_bind`, `Propagation.performs_change`, `Propagation.performs_writeCell`: the
  steps, for all outcomes.
* `Propagation.returns_bind`, `Propagation.returns_change`, `Propagation.returns_forM`: the steps,
  for success.
* `Store.Evolves.trans`: evolutions of stores compose.
-/

namespace Scheduling

/-! ## Evolutions of stores -/

/-- What writes to the listed cells do: the others keep their values, and the past stays. -/
structure Cells.Evolves (own : List CellId) (c c' : Cells) : Prop where
  size : c'.values.size = c.values.size
  depth : c'.depth = c.depth
  past : ∀ k, k < c.depth → c'.past k = c.past k
  others : ∀ cell, cell ∉ own → c'.values.get? cell.index = c.values.get? cell.index
  recorded : c.Recorded → c'.Recorded

namespace Cells.Evolves

variable {own : List CellId}

theorem refl (c : Cells) : c.Evolves own c :=
  ⟨rfl, rfl, fun _ _ => rfl, fun _ _ => rfl, id⟩

theorem trans {a b c : Cells} (h : a.Evolves own b) (h' : b.Evolves own c) : a.Evolves own c := by
  refine ⟨h'.size.trans h.size, h'.depth.trans h.depth, fun k below => ?_,
    fun cell other => (h'.others cell other).trans (h.others cell other),
    fun recorded => h'.recorded (h.recorded recorded)⟩
  rw [h'.past k (by rw [h.depth]; exact below), h.past k below]

theorem mono {more : List CellId} {c c' : Cells} (h : c.Evolves own c') (le : own ⊆ more) :
    c.Evolves more c' :=
  ⟨h.size, h.depth, h.past, fun cell other => h.others cell fun mem => other (le mem), h.recorded⟩

/-- Without cells to write, the values stay. -/
theorem values_eq {c c' : Cells} (h : c.Evolves [] c') : c'.values = c.values :=
  Table.ext_get? fun key => h.others ⟨key⟩ (by simp)

end Cells.Evolves

theorem Cells.evolves_of_assign {c c' : Cells} {cell : CellId} {value : Int}
    (h : c.assign cell value = .ok c') : c.Evolves [cell] c' := by
  obtain ⟨inside, values, depth, past, recorded⟩ := assign_spec h
  refine ⟨by rw [values, Table.size_set], depth, past, fun other differs => ?_, recorded⟩
  have : cell.index ≠ other.index := fun eq => differs (by cases cell; cases other; simp_all)
  rw [values, Table.get?_set, if_neg this]

/-- What a propagator with the listed cells does to the store. -/
structure Store.Evolves (own : List CellId) (s s' : Store) : Prop where
  wellFormed : s'.domains.WellFormed
  domains : s.domains.Evolves s'.domains
  cells : s.cells.Evolves own s'.cells

theorem Store.Evolves.refl {own : List CellId} {s : Store} (h : s.domains.WellFormed) :
    s.Evolves own s :=
  ⟨h, .refl _, .refl _⟩

theorem Store.Evolves.trans {own : List CellId} {a b c : Store} (h : a.Evolves own b)
    (h' : b.Evolves own c) : a.Evolves own c :=
  ⟨h'.wellFormed, h.domains.trans h'.domains, h.cells.trans h'.cells⟩

/-! ## Steps of a context -/

/-- A decision about one variable. -/
inductive Decision
  | setBound (v : Variable) (side : Side) (value : Int)
  | assign (l : Literal) (value : Bool)
  | update (i : IntervalId) (u : Update)

/-- What a decision does to the domains. -/
def Decision.write : Decision → Domains → Except Fault (Option Domains)
  | setBound v side value => v.setBound side value
  | assign l value => l.assign value
  | update i u => (·.update i u)

/-- Through all views and literals, a decision tightens an integer domain or updates an interval. -/
theorem Decision.cases_of_write {d : Decision} {domains domains' : Domains}
    (wrote : d.write domains = .ok (some domains')) :
    (∃ x side value, domains.tighten x side value = .ok (some domains')) ∨
      ∃ i u, domains.update i u = .ok (some domains') := by
  have moved {v : Variable} {side : Side} {value : Int}
      (set : v.setBound side value domains = .ok (some domains')) :
      ∃ x side value, domains.tighten x side value = .ok (some domains') := by
    rw [Variable.setBound_eq] at set
    cases mapped : v.invert side value with
    | error fault => simp [mapped, bind, Except.bind] at set
    | ok bound => exact ⟨_, _, bound, by simpa only [mapped, bind, Except.bind] using set⟩
  cases d with
  | setBound v side value => exact .inl (moved wrote)
  | assign l value =>
    refine .inl ?_
    simp only [Decision.write, Literal.assign] at wrote
    split at wrote <;> exact moved wrote
  | update i u => exact .inr ⟨i, u, wrote⟩

theorem Decision.evolves_of_write {d : Decision} {domains domains' : Domains}
    (wellFormed : domains.WellFormed) (wrote : d.write domains = .ok (some domains')) :
    domains'.WellFormed ∧ domains.Evolves domains' := by
  rcases d.cases_of_write wrote with ⟨x, side, value, tightened⟩ | ⟨i, u, updated⟩
  · exact Domains.evolves_of_tighten wellFormed tightened
  · exact Domains.evolves_of_update wellFormed updated

namespace Store

/-- One step that a context offers to a propagator with the listed cells: a decision that leaves a
value, a write to a cell, or a note. -/
inductive Moves (own : List CellId) : Store → Store → Prop
  | decide {s : Store} {domains : Domains} (d : Decision)
    (wrote : d.write s.domains = .ok (some domains)) : Moves own s { s with domains }
  | assign {s : Store} {cell : CellId} {value : Int} {cells : Cells} (mem : cell ∈ own)
    (assigned : s.cells.assign cell value = .ok cells) : Moves own s { s with cells }
  | note {s : Store} (n : Note) : Moves own s (s.note n)

/-- The second store is what any number of such steps make of the first one. -/
abbrev Reaches (own : List CellId) : Store → Store → Prop := Relation.ReflTransGen (Moves own)

variable {own : List CellId} {s s' : Store}

theorem Moves.evolves (h : s.Moves own s') (wellFormed : s.domains.WellFormed) :
    s.Evolves own s' := by
  cases h with
  | decide d wrote =>
    obtain ⟨wellFormed', evolves⟩ := d.evolves_of_write wellFormed wrote
    exact ⟨wellFormed', evolves, .refl _⟩
  | assign mem assigned =>
    exact ⟨wellFormed, .refl _, (Cells.evolves_of_assign assigned).mono (by simpa using mem)⟩
  | note n => exact ⟨wellFormed, .refl _, .refl _⟩

theorem Reaches.evolves (h : s.Reaches own s') (wellFormed : s.domains.WellFormed) :
    s.Evolves own s' := by
  induction h with
  | refl => exact .refl wellFormed
  | tail _ move ih => exact ih.trans (move.evolves ih.wellFormed)

end Store

/-- A stateful step followed by another one succeeds exactly if both do. -/
theorem run_bind_eq_ok_iff {σ ε α β : Type} {x : StateT σ (Except ε) α}
    {f : α → StateT σ (Except ε) β} {s s'' : σ} {b : β} :
    (x >>= f).run s = .ok (b, s'') ↔
      ∃ a s', x.run s = .ok (a, s') ∧ (f a).run s' = .ok (b, s'') := by
  rw [StateT.run_bind]
  cases x.run s with
  | error cause => simp [bind, Except.bind]
  | ok result =>
    obtain ⟨a, s'⟩ := result
    simp [bind, Except.bind]

/-- What follows a stateful step that succeeds decides how both end. -/
theorem run_bind_of_run {σ ε α β : Type} {x : StateT σ (Except ε) α}
    {f : α → StateT σ (Except ε) β} {s s' : σ} {a : α} (ran : x.run s = .ok (a, s')) :
    (x >>= f).run s = (f a).run s' := by
  rw [StateT.run_bind, ran]
  rfl

theorem run_liftM {σ ε α : Type} (x : Except ε α) (s : σ) :
    (liftM x : StateT σ (Except ε) α).run s = x.map fun a => (a, s) := by
  cases x <;> rfl

theorem run_liftM_eq_ok_iff {σ ε α : Type} {x : Except ε α} {s s' : σ} {a : α} :
    (liftM x : StateT σ (Except ε) α).run s = .ok (a, s') ↔ x = .ok a ∧ s' = s := by
  rw [run_liftM]
  cases x <;> simp [Except.map, eq_comm]

theorem bind_eq_ok_iff {ε α β : Type} {x : Except ε α} {f : α → Except ε β} {b : β} :
    (x >>= f) = .ok b ↔ ∃ a, x = .ok a ∧ f a = .ok b := by
  cases x <;> simp [bind, Except.bind]

theorem bind_eq_error_iff {ε α β : Type} {x : Except ε α} {f : α → Except ε β} {fault : ε} :
    (x >>= f) = .error fault ↔ x = .error fault ∨ ∃ a, x = .ok a ∧ f a = .error fault := by
  cases x <;> simp [bind, Except.bind]

namespace Propagation

variable {α β : Type}

/-- The two ways in which two steps come to an end. -/
theorem exec_bind_eq_ok_iff {x : Propagation α} {f : α → Propagation β} {s s'' : Store}
    {r : Except Inconsistency β} :
    exec (x >>= f) s = .ok (r, s'') ↔
      (∃ a s', exec x s = .ok (.ok a, s') ∧ exec (f a) s' = .ok (r, s'')) ∨
        ∃ cause, exec x s = .ok (.error cause, s'') ∧ r = .error cause := by
  rw [exec_bind]
  cases exec x s with
  | error fault => simp
  | ok result =>
    obtain ⟨outcome, s'⟩ := result
    cases outcome <;> simp [eq_comm, and_comm]

/-- What follows a step that succeeds decides how both end. -/
theorem exec_bind_of_exec {x : Propagation α} {f : α → Propagation β} {s s' : Store} {a : α}
    (ran : exec x s = .ok (.ok a, s')) : exec (x >>= f) s = exec (f a) s' := by
  rw [exec_bind, ran]

/-- Two steps succeed exactly if both do. -/
theorem exec_bind_succeeds_iff {x : Propagation α} {f : α → Propagation β} {s s'' : Store} {b : β} :
    exec (x >>= f) s = .ok (.ok b, s'') ↔
      ∃ a s', exec x s = .ok (.ok a, s') ∧ exec (f a) s' = .ok (.ok b, s'') := by
  rw [exec_bind_eq_ok_iff]
  constructor
  · rintro (both | ⟨cause, -, impossible⟩)
    · exact both
    · cases impossible
  · exact Or.inl

theorem exec_inspect_eq_ok_iff {read : Domains → Except Fault α} {s s' : Store}
    {r : Except Inconsistency α} :
    exec (inspect read) s = .ok (r, s') ↔ ∃ a, read s.domains = .ok a ∧ r = .ok a ∧ s' = s := by
  rw [exec_inspect]
  cases read s.domains <;> simp [Except.map, eq_comm]

theorem exec_liftM_eq_ok_iff {x : Except Fault α} {s s' : Store} {r : Except Inconsistency α} :
    exec (liftM x) s = .ok (r, s') ↔ ∃ a, x = .ok a ∧ r = .ok a ∧ s' = s := by
  rw [exec_lift]
  cases x <;> simp [Except.map, eq_comm]

/-- Reading does not fail, so that what follows it decides how the computation ends. -/
theorem exec_inspect_bind_eq_ok_iff {read : Domains → Except Fault α} {f : α → Propagation β}
    {s s' : Store} {r : Except Inconsistency β} :
    exec (inspect read >>= f) s = .ok (r, s') ↔
      ∃ a, read s.domains = .ok a ∧ exec (f a) s = .ok (r, s') := by
  rw [exec_bind, exec_inspect]
  cases read s.domains <;> simp [Except.map]

theorem exec_liftM_bind_eq_ok_iff {x : Except Fault α} {f : α → Propagation β} {s s' : Store}
    {r : Except Inconsistency β} :
    exec (liftM x >>= f) s = .ok (r, s') ↔ ∃ a, x = .ok a ∧ exec (f a) s = .ok (r, s') := by
  rw [exec_bind, exec_lift]
  cases x <;> simp [Except.map]

theorem exec_liftM_bind_of_error {x : Except Fault α} {f : α → Propagation β} {s : Store}
    {fault : Fault} (failed : x = .error fault) : exec (liftM x >>= f) s = .error fault := by
  rw [exec_bind, exec_lift, failed]
  rfl

/-- A change that succeeds replaces the domains. -/
theorem exec_change_eq_ok_iff {write : Domains → Except Fault (Option Domains)} {s s' : Store} :
    exec (change write) s = .ok (.ok (), s') ↔
      ∃ d, write s.domains = .ok (some d) ∧ s' = { s with domains := d } := by
  rw [exec_change]
  cases write s.domains with
  | error fault => simp [Except.map]
  | ok left => cases left <;> simp [Except.map, eq_comm]

/-- What moving a bound of an interval does to the rows. -/
theorem tighten_spec {i : IntervalId} {which : Bound} {value : Int} {s s' : Store}
    (wellFormed : s.domains.WellFormed) (ran : exec (tighten i which value) s = .ok (.ok (), s')) :
    s'.domains.WellFormed ∧ s.domains.Narrows s'.domains ∧ ∃ old new,
      s.domains.interval i = .ok old ∧ old.update? (.bound which value) = some new ∧
      (∀ j, s'.domains.interval j = if i = j then .ok new else s.domains.interval j) ∧
      ∀ x, s'.domains.integer x = s.domains.integer x := by
  unfold tighten update at ran
  obtain ⟨d, updated, rfl⟩ := exec_change_eq_ok_iff.1 ran
  obtain ⟨wellFormed', evolves⟩ := Domains.evolves_of_update wellFormed updated
  exact ⟨wellFormed', evolves.narrows, Domains.interval_of_update updated⟩

/-- A bound that was moved holds for an interval that is not absent. -/
theorem tightens_of_tighten {i : IntervalId} {which : Bound} {value : Int} {s s' : Store}
    {w : Interval} (wellFormed : s.domains.WellFormed)
    (ran : exec (tighten i which value) s = .ok (.ok (), s'))
    (row : s'.domains.interval i = .ok w) (there : w.isAbsent = false) :
    ∃ old : Interval, (old.toBounds.tighten which value).Tightens w.toBounds := by
  obtain ⟨-, -, old, new, here, updated, rows, -⟩ := tighten_spec wellFormed ran
  rw [rows, if_pos rfl] at row
  cases row
  exact ⟨old, Interval.tightens_of_update? (wellFormed.interval _ old here) updated there⟩

theorem exec_writeCell (cell : CellId) (value : Int) (s : Store) :
    exec (writeCell cell value) s =
      (s.cells.assign cell value).map fun cells => (.ok (), { s with cells }) := by
  simp only [writeCell, exec_bind, exec_get, exec_lift]
  cases s.cells.assign cell value with
  | error fault => rfl
  | ok cells => rfl

theorem exec_writeCell_eq_ok_iff {cell : CellId} {value : Int} {s s' : Store} {r : Status} :
    exec (writeCell cell value) s = .ok (r, s') ↔
      ∃ cells, s.cells.assign cell value = .ok cells ∧ r = .ok () ∧ s' = { s with cells } := by
  rw [exec_writeCell]
  cases s.cells.assign cell value <;> simp [Except.map, eq_comm]

/-- What a write to a cell does. -/
theorem writeCell_spec {cell : CellId} {value : Int} {s s' : Store} {r : Status}
    (ran : exec (writeCell cell value) s = .ok (r, s')) :
    r = .ok () ∧ s'.domains = s.domains ∧ cell.index < s.cells.values.size ∧
      s'.cells.values = s.cells.values.set cell.index value := by
  obtain ⟨cells, assigned, rfl, rfl⟩ := exec_writeCell_eq_ok_iff.1 ran
  obtain ⟨inside, values, -⟩ := Cells.assign_spec assigned
  exact ⟨rfl, rfl, inside, values⟩

/-! ## All outcomes -/

/-- Whatever the outcome, the store evolves and only the listed cells are written. -/
def Evolves (own : List CellId) (x : Propagation α) : Prop :=
  ∀ s r s', s.domains.WellFormed → x.exec s = .ok (r, s') → s.Evolves own s'

/-- Whatever the outcome, the store is one that steps of a context lead to. -/
def Performs (own : List CellId) (x : Propagation α) : Prop :=
  ∀ s r s', x.exec s = .ok (r, s') → s.Reaches own s'

section Performs

variable {own : List CellId}

theorem Performs.evolves {x : Propagation α} (h : Performs own x) : Evolves own x :=
  fun s r s' wellFormed ran => (h s r s' ran).evolves wellFormed

theorem performs_pure (a : α) : Performs own (pure a) := by
  intro s r s' ran
  cases ran
  exact .refl

theorem performs_throw (cause : Inconsistency) : Performs own (throw cause : Propagation α) := by
  intro s r s' ran
  cases ran
  exact .refl

theorem performs_bind {x : Propagation α} {f : α → Propagation β} (h : Performs own x)
    (h' : ∀ a, Performs own (f a)) : Performs own (x >>= f) := by
  intro s r s'' ran
  rcases exec_bind_eq_ok_iff.1 ran with ⟨a, s', first, second⟩ | ⟨cause, first, -⟩
  · exact (h s _ s' first).trans (h' a s' r s'' second)
  · exact h s _ s'' first

/-- A step that is taken on a condition, with what follows it. -/
theorem performs_when {c : Prop} [Decidable c] {x : Propagation Unit} {f : Unit → Propagation β}
    (h : Performs own x) (h' : ∀ a, Performs own (f a)) :
    Performs own (if c then x >>= f else f ()) := by
  split
  · exact performs_bind h h'
  · exact h' ()

theorem performs_ite {c : Prop} [Decidable c] {x y : Propagation α} (h : Performs own x)
    (h' : Performs own y) : Performs own (if c then x else y) := by
  split
  · exact h
  · exact h'

theorem performs_inspect (read : Domains → Except Fault α) : Performs own (inspect read) := by
  intro s r s' ran
  obtain ⟨a, -, -, rfl⟩ := exec_inspect_eq_ok_iff.1 ran
  exact .refl

theorem performs_liftM (x : Except Fault α) : Performs own (liftM x : Propagation α) := by
  intro s r s' ran
  obtain ⟨a, -, -, rfl⟩ := exec_liftM_eq_ok_iff.1 ran
  exact .refl

theorem performs_get : Performs own (get : Propagation Store) := by
  intro s r s' ran
  cases ran
  exact .refl

theorem performs_say (m : Message) : Performs own (say m) := by
  intro s r s' ran
  cases ran
  exact .single (.note _)

/-- A decision is one step, or fails and leaves the store as it is. -/
theorem performs_change (d : Decision) : Performs own (change d.write) := by
  intro s r s' ran
  rw [exec_change] at ran
  cases wrote : d.write s.domains with
  | error fault => simp [wrote, Except.map] at ran
  | ok left =>
    cases left with
    | none =>
      simp only [wrote, Except.map, Except.ok.injEq, Prod.mk.injEq] at ran
      exact ran.2 ▸ .refl
    | some domains =>
      simp only [wrote, Except.map, Except.ok.injEq, Prod.mk.injEq] at ran
      rw [← ran.2]
      exact .single (.decide d wrote)

theorem performs_update (i : IntervalId) (u : Update) : Performs own (update i u) :=
  performs_change (.update i u)

theorem performs_tighten (i : IntervalId) (which : Bound) (value : Int) :
    Performs own (tighten i which value) :=
  performs_update i _

theorem performs_setBound (v : Variable) (side : Side) (value : Int) :
    Performs own (setBound v side value) :=
  performs_change (.setBound v side value)

theorem performs_assign (l : Literal) (value : Bool) : Performs own (assign l value) :=
  performs_change (.assign l value)

theorem performs_writeCell {cell : CellId} (mem : cell ∈ own) (value : Int) :
    Performs own (writeCell cell value) := by
  intro s r s' ran
  obtain ⟨cells, assigned, -, rfl⟩ := exec_writeCell_eq_ok_iff.1 ran
  exact .single (.assign mem assigned)

theorem performs_setActive {context : Context} (mem : context.activity ∈ own) (active : Bool) :
    Performs own (setActive context active) :=
  performs_writeCell mem _

theorem performs_readCell (cell : CellId) : Performs own (readCell cell) :=
  performs_bind performs_get fun _ => performs_liftM _

theorem performs_forM (l : List α) {f : α → Propagation PUnit} (h : ∀ a, Performs own (f a)) :
    Performs own (l.forM f) := by
  induction l with
  | nil => exact performs_pure _
  | cons a l ih => exact performs_bind (h a) fun _ => ih

theorem performs_mapM (l : List α) {f : α → Propagation β} (h : ∀ a, Performs own (f a)) :
    Performs own (l.mapM f) := by
  induction l with
  | nil => exact performs_pure _
  | cons a l ih =>
    rw [List.mapM_cons]
    exact performs_bind (h a) fun _ => performs_bind ih fun _ => performs_pure _

theorem performs_filterMapM (l : List α) {f : α → Propagation (Option β)}
    (h : ∀ a, Performs own (f a)) : Performs own (l.filterMapM f) := by
  induction l with
  | nil => exact performs_pure _
  | cons a l ih =>
    rw [List.filterMapM_cons]
    refine performs_bind (h a) fun found => ?_
    cases found with
    | none => exact ih
    | some b => exact performs_bind ih fun _ => performs_pure _

end Performs

/-! ## Success -/

/-- From the given store the computation succeeds with a result and a store of which `Q` holds. -/
def Returns (x : Propagation α) (s : Store) (Q : α → Store → Prop) : Prop :=
  ∃ a s', x.exec s = .ok (.ok a, s') ∧ Q a s'

theorem returns_pure {a : α} {s : Store} {Q : α → Store → Prop} (h : Q a s) :
    Returns (pure a) s Q :=
  ⟨a, s, rfl, h⟩

theorem returns_bind {x : Propagation α} {f : α → Propagation β} {s : Store}
    {Q : α → Store → Prop} {R : β → Store → Prop} (h : Returns x s Q)
    (h' : ∀ a s', Q a s' → Returns (f a) s' R) : Returns (x >>= f) s R := by
  obtain ⟨a, s', first, middle⟩ := h
  obtain ⟨b, s'', second, last⟩ := h' a s' middle
  exact ⟨b, s'', exec_bind_eq_ok_iff.2 (.inl ⟨a, s', first, second⟩), last⟩

theorem Returns.weaken {x : Propagation α} {s : Store} {Q R : α → Store → Prop}
    (h : Returns x s Q) (le : ∀ a s', Q a s' → R a s') : Returns x s R := by
  obtain ⟨a, s', ran, q⟩ := h
  exact ⟨a, s', ran, le a s' q⟩

theorem returns_of_exec_eq {x y : Propagation α} {s t : Store} {Q : α → Store → Prop}
    (same : x.exec s = y.exec t) (h : Returns y t Q) : Returns x s Q := by
  unfold Returns
  rw [same]
  exact h

theorem returns_inspect {read : Domains → Except Fault α} {s : Store} {a : α}
    {Q : α → Store → Prop} (h : read s.domains = .ok a) (q : Q a s) :
    Returns (inspect read) s Q :=
  ⟨a, s, exec_inspect_eq_ok_iff.2 ⟨a, h, rfl, rfl⟩, q⟩

theorem returns_liftM {x : Except Fault α} {s : Store} {a : α} {Q : α → Store → Prop}
    (h : x = .ok a) (q : Q a s) : Returns (liftM x : Propagation α) s Q :=
  ⟨a, s, exec_liftM_eq_ok_iff.2 ⟨a, h, rfl, rfl⟩, q⟩

/-- Reading, and what is done with the answer. -/
theorem returns_inspect_bind {read : Domains → Except Fault α} {f : α → Propagation β} {s : Store}
    {a : α} {R : β → Store → Prop} (h : read s.domains = .ok a) (h' : Returns (f a) s R) :
    Returns (inspect read >>= f) s R := by
  refine returns_bind (returns_inspect (Q := fun b t => b = a ∧ t = s) h ⟨rfl, rfl⟩) ?_
  rintro _ _ ⟨rfl, rfl⟩
  exact h'

theorem returns_liftM_bind {x : Except Fault α} {f : α → Propagation β} {s : Store} {a : α}
    {R : β → Store → Prop} (h : x = .ok a) (h' : Returns (f a) s R) :
    Returns (liftM x >>= f) s R := by
  refine returns_bind (returns_liftM (Q := fun b t => b = a ∧ t = s) h ⟨rfl, rfl⟩) ?_
  rintro _ _ ⟨rfl, rfl⟩
  exact h'

theorem returns_change_bind {write : Domains → Except Fault (Option Domains)}
    {f : Unit → Propagation β} {s : Store} {d : Domains} {R : β → Store → Prop}
    (h : write s.domains = .ok (some d)) (h' : Returns (f ()) { s with domains := d } R) :
    Returns (change write >>= f) s R := by
  refine returns_bind (Q := fun _ t => t = { s with domains := d })
    ⟨(), { s with domains := d }, by rw [exec_change, h]; rfl, rfl⟩ ?_
  rintro _ _ rfl
  exact h'

/-- A step that is taken on a condition, with what follows it. -/
theorem returns_when {c : Prop} [Decidable c] {x : Propagation Unit} {f : Unit → Propagation β}
    {s : Store} {Q : Store → Prop} {R : β → Store → Prop}
    (h : c → Returns x s fun _ s' => Q s') (skip : Q s)
    (h' : ∀ s', Q s' → Returns (f ()) s' R) : Returns (if c then x >>= f else f ()) s R := by
  split
  · rename_i holds
    exact returns_bind (h holds) fun _ s' => h' s'
  · exact h' s skip

theorem returns_say {m : Message} {s : Store} {Q : Unit → Store → Prop} (q : Q () (s.say m)) :
    Returns (say m) s Q :=
  ⟨(), s.say m, rfl, q⟩

theorem returns_change {write : Domains → Except Fault (Option Domains)} {s : Store} {d : Domains}
    {Q : Unit → Store → Prop} (h : write s.domains = .ok (some d))
    (q : Q () { s with domains := d }) : Returns (change write) s Q :=
  ⟨(), { s with domains := d }, by rw [exec_change, h]; rfl, q⟩

theorem returns_writeCell {cell : CellId} {value : Int} {s : Store} {Q : Unit → Store → Prop}
    (inside : cell.index < s.cells.values.size)
    (q : ∀ cells, s.cells.assign cell value = .ok cells → Q () { s with cells }) :
    Returns (writeCell cell value) s Q := by
  obtain ⟨old, row⟩ := Table.exists_get? inside
  have known : s.cells.read cell = .ok old := Cells.read_eq_ok_iff.2 row
  obtain ⟨cells, assigned⟩ : ∃ cells, s.cells.assign cell value = .ok cells := by
    simp only [Cells.assign, known, bind, Except.bind]
    split <;> exact ⟨_, rfl⟩
  exact ⟨(), { s with cells }, exec_writeCell_eq_ok_iff.2 ⟨cells, assigned, rfl, rfl⟩,
    q cells assigned⟩

/-- Computations that only read can be done one after the other. -/
theorem returns_mapM {l : List α} {f : α → Propagation β} {s : Store} {R : α → β → Prop}
    (h : ∀ a ∈ l, Returns (f a) s fun b s' => s' = s ∧ R a b) :
    Returns (l.mapM f) s fun bs s' => s' = s ∧ List.Forall₂ R l bs := by
  induction l with
  | nil => exact returns_pure ⟨rfl, .nil⟩
  | cons a l ih =>
    rw [List.mapM_cons]
    refine returns_bind (h a List.mem_cons_self) ?_
    rintro b _ ⟨rfl, related⟩
    refine returns_bind (ih fun a mem => h a (List.mem_cons_of_mem _ mem)) ?_
    rintro bs _ ⟨rfl, rest⟩
    exact returns_pure ⟨rfl, .cons related rest⟩

/-- A loop keeps what every round keeps. -/
theorem returns_forM {l : List α} {f : α → Propagation PUnit} {s : Store} {I : Store → Prop}
    (start : I s) (round : ∀ a ∈ l, ∀ s, I s → Returns (f a) s fun _ s' => I s') :
    Returns (l.forM f) s fun _ s' => I s' := by
  induction l generalizing s with
  | nil => exact returns_pure start
  | cons a l ih =>
    exact returns_bind (round a List.mem_cons_self s start) fun _ s' next =>
      ih next fun b mem => round b (List.mem_cons_of_mem _ mem)

end Propagation

end Scheduling
