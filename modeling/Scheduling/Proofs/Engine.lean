import Scheduling.Proofs.Agenda
import Scheduling.Proofs.Rules
import Scheduling.Engine

/-!
# Sane engines

The propagators of an engine share its store, but each has cells of its own, and the trails of
domains and cells always stand at the same checkpoint. Every step of the engine keeps this.

Results:
* `Store.Sane`, `Engine.Sane`: what holds of every store and every engine.
* `Store.Sane.evolves`: evolutions keep a store sane.
* `Engine.notify_spec`, `Engine.call_spec`, `Engine.visit_spec`: what the steps of the fixpoint loop
  do.
* `Engine.sane_of_loop`: propagation keeps an engine sane and its past as it was.
-/

namespace Scheduling

/-- Both trails stand at the same checkpoint and know only rows that exist; the rows of all
checkpoints are well-formed and get narrower from each to the next. -/
structure Store.Sane (s : Store) : Prop where
  depth : s.cells.depth = s.domains.depth
  recordedRows : s.domains.Recorded
  recordedCells : s.cells.Recorded
  wellFormed : ∀ k, (s.domains.past k).WellFormed
  narrows : ∀ j k, j ≤ k → (s.domains.past j).Narrows (s.domains.past k)

theorem Store.sane_empty : Store.empty.Sane := by
  have rows (k : Nat) : Domains.empty.past k = Domains.empty.rows :=
    Domains.past_of_depth_le (Nat.zero_le k)
  have noInteger (x : IntegerId) (row : IntegerDomain) : Domains.empty.integer x ≠ .ok row := by
    intro found
    rw [Domains.integer_eq_ok_iff] at found
    cases found
  have noInterval (i : IntervalId) (row : Interval) : Domains.empty.interval i ≠ .ok row := by
    intro found
    rw [Domains.interval_eq_ok_iff] at found
    cases found
  refine ⟨rfl, fun _ mem => ?_, fun _ mem => ?_, fun k => ?_, fun j k _ => ?_⟩
  · cases mem
  · cases mem
  · show (Domains.empty.past k).WellFormed
    rw [rows]
    exact ⟨fun x row found => absurd found (noInteger x row),
      fun i row found => absurd found (noInterval i row)⟩
  · show (Domains.empty.past j).Narrows (Domains.empty.past k)
    rw [rows, rows]
    exact .refl _

namespace Store.Sane

theorem wellFormed_now {s : Store} (h : s.Sane) : s.domains.WellFormed := by
  have now := h.wellFormed s.domains.depth
  rw [Domains.past_depth] at now
  exact ⟨now.integer, now.interval⟩

/-- The rows of a checkpoint that was left contain those of now. -/
theorem narrows_now {s : Store} (h : s.Sane) (k : Nat) : (s.domains.past k).Narrows s.domains := by
  have now := h.narrows k (max k s.domains.depth) (Nat.le_max_left ..)
  rw [Domains.past_of_depth_le (Nat.le_max_right ..)] at now
  exact ⟨now.integer, now.interval⟩

theorem evolves {own : List CellId} {s s' : Store} (h : s.Sane) (evolves : s.Evolves own s') :
    s'.Sane := by
  have same (k : Nat) (below : k < s.domains.depth) : s'.domains.past k = s.domains.past k :=
    evolves.domains.past k below
  have now (k : Nat) (above : ¬ k < s.domains.depth) : s'.domains.past k = s'.domains.rows :=
    Domains.past_of_depth_le (by rw [evolves.domains.depth]; omega)
  refine ⟨?_, evolves.domains.recorded h.recordedRows, evolves.cells.recorded h.recordedCells,
    fun k => ?_, fun j k le => ?_⟩
  · rw [evolves.cells.depth, evolves.domains.depth, h.depth]
  · by_cases below : k < s.domains.depth
    · rw [same k below]
      exact h.wellFormed k
    · rw [now k below]
      exact ⟨evolves.wellFormed.integer, evolves.wellFormed.interval⟩
  · by_cases below : k < s.domains.depth
    · rw [same k below, same j (by omega)]
      exact h.narrows j k le
    · rw [now k below]
      by_cases below' : j < s.domains.depth
      · rw [same j below']
        have first := h.narrows_now j
        exact first.trans ⟨evolves.domains.narrows.integer, evolves.domains.narrows.interval⟩
      · rw [now j below']
        exact .refl _

theorem addInteger {s : Store} (h : s.Sane) {row : IntegerDomain} (wellFormed : row.WellFormed) :
    ({ s with domains := s.domains.addInteger row } : Store).Sane := by
  have past (k : Nat) : (s.domains.addInteger row).past k = (s.domains.past k).addInteger row :=
    Domains.past_addInteger h.recordedRows row k
  refine ⟨h.depth, fun change mem => ?_, h.recordedCells, fun k => ?_, fun j k le => ?_⟩
  · have inside := h.recordedRows change mem
    cases change with
    | integer x old =>
      show x.index < (s.domains.addInteger row).integers.size
      simp only [Domains.addInteger, Table.size_push]
      have : x.index < s.domains.integers.size := inside
      omega
    | interval i old => exact inside
  · show ((s.domains.addInteger row).past k).WellFormed
    rw [past]
    exact Domains.wellFormed_addInteger (h.wellFormed k) wellFormed
  · show ((s.domains.addInteger row).past j).Narrows ((s.domains.addInteger row).past k)
    rw [past, past]
    have before := h.narrows j k le
    refine ⟨fun x old found => ?_, before.interval⟩
    have size := (Domains.size_past s.domains j).1.trans (Domains.size_past s.domains k).1.symm
    by_cases last : x.index = (s.domains.past j).integers.size
    · refine ⟨old, ?_, .refl _⟩
      rw [Domains.integer_eq_ok_iff, Domains.addInteger, Table.get?_push] at found ⊢
      rw [if_pos last] at found
      rw [if_pos (by omega), found]
    · rw [Domains.integer_eq_ok_iff, Domains.addInteger, Table.get?_push, if_neg last,
        ← Domains.integer_eq_ok_iff] at found
      obtain ⟨new, found', narrows⟩ := before.integer x old found
      refine ⟨new, ?_, narrows⟩
      rw [Domains.integer_eq_ok_iff, Domains.addInteger, Table.get?_push, if_neg (by omega),
        ← Domains.integer_eq_ok_iff]
      exact found'

theorem addInterval {s : Store} (h : s.Sane) {row : Interval} (wellFormed : row.WellFormed) :
    ({ s with domains := s.domains.addInterval row } : Store).Sane := by
  have past (k : Nat) : (s.domains.addInterval row).past k = (s.domains.past k).addInterval row :=
    Domains.past_addInterval h.recordedRows row k
  refine ⟨h.depth, fun change mem => ?_, h.recordedCells, fun k => ?_, fun j k le => ?_⟩
  · have inside := h.recordedRows change mem
    cases change with
    | integer x old => exact inside
    | interval i old =>
      show i.index < (s.domains.addInterval row).intervals.size
      simp only [Domains.addInterval, Table.size_push]
      have : i.index < s.domains.intervals.size := inside
      omega
  · show ((s.domains.addInterval row).past k).WellFormed
    rw [past]
    exact Domains.wellFormed_addInterval (h.wellFormed k) wellFormed
  · show ((s.domains.addInterval row).past j).Narrows ((s.domains.addInterval row).past k)
    rw [past, past]
    have before := h.narrows j k le
    refine ⟨before.integer, fun i old found => ?_⟩
    have size := (Domains.size_past s.domains j).2.trans (Domains.size_past s.domains k).2.symm
    by_cases last : i.index = (s.domains.past j).intervals.size
    · refine ⟨old, ?_, .refl _⟩
      rw [Domains.interval_eq_ok_iff, Domains.addInterval, Table.get?_push] at found ⊢
      rw [if_pos last] at found
      rw [if_pos (by omega), found]
    · rw [Domains.interval_eq_ok_iff, Domains.addInterval, Table.get?_push, if_neg last,
        ← Domains.interval_eq_ok_iff] at found
      obtain ⟨new, found', narrows⟩ := before.interval i old found
      refine ⟨new, ?_, narrows⟩
      rw [Domains.interval_eq_ok_iff, Domains.addInterval, Table.get?_push, if_neg (by omega),
        ← Domains.interval_eq_ok_iff]
      exact found'

theorem checkpoint {s : Store} (h : s.Sane) : s.checkpoint.Sane := by
  refine ⟨?_, fun change mem => ?_, fun entry mem => ?_, fun k => ?_, fun j k le => ?_⟩
  · show s.cells.trail.checkpoint.depth = s.domains.trail.checkpoint.depth
    rw [Trail.depth_checkpoint, Trail.depth_checkpoint]
    exact congrArg (· + 1) h.depth
  · refine h.recordedRows change ?_
    have mem : change ∈ s.domains.trail.checkpoint.toList := mem
    rwa [Trail.toList_checkpoint] at mem
  · refine h.recordedCells entry ?_
    have mem : entry ∈ s.cells.trail.checkpoint.toList := mem
    rwa [Trail.toList_checkpoint] at mem
  · show (s.domains.checkpoint.past k).WellFormed
    rw [Domains.past_checkpoint]
    exact h.wellFormed k
  · show (s.domains.checkpoint.past j).Narrows (s.domains.checkpoint.past k)
    rw [Domains.past_checkpoint, Domains.past_checkpoint]
    exact h.narrows j k le

theorem undoTo {s : Store} (h : s.Sane) {k : Nat} {domains : Domains} {cells : Cells}
    (first : s.domains.undoTo k = .ok domains) (second : s.cells.undoTo k = .ok cells) :
    ({ s with domains, cells } : Store).Sane := by
  obtain ⟨-, depth, -, past, recorded⟩ := Domains.undo_spec first
  obtain ⟨-, depth', past', recorded'⟩ := Cells.undo_spec second
  refine ⟨depth'.trans depth.symm, recorded h.recordedRows, recorded' h.recordedCells,
    fun j => ?_, fun j j' le => ?_⟩
  · show (domains.past j).WellFormed
    rw [past]
    exact h.wellFormed _
  · show (domains.past j).Narrows (domains.past j')
    rw [past, past]
    exact h.narrows _ _ (by omega)

end Store.Sane

namespace Engine

/-- The cells of a propagator, with that of its activity. -/
def owned (e : Engine Rule) (p : PropagatorId) : List CellId :=
  match e.activity.get? p.index, e.propagators.get? p.index with
  | some activity, some q => activity :: q.cells
  | _, _ => []

/-- The store is sane, the agenda is valid, and no two propagators share a cell. -/
structure Sane (e : Engine Rule) : Prop where
  store : e.store.Sane
  agenda : e.agenda.Valid
  size : e.activity.size = e.propagators.size
  owned_lt : ∀ p cell, cell ∈ e.owned p → cell.index < e.store.cells.values.size
  owned_nodup : ∀ p, (e.owned p).Nodup
  owned_disjoint : ∀ p q cell, cell ∈ e.owned p → cell ∈ e.owned q → p = q

theorem owned_eq {e : Engine Rule} {p : PropagatorId} {activity : CellId} {q : Rule}
    (here : e.activity.get? p.index = some activity) (row : e.propagators.get? p.index = some q) :
    e.owned p = activity :: q.cells := by
  simp [owned, here, row]

/-- No event is pending and nobody waits. -/
structure Quiet (e : Engine Rule) : Prop where
  events : e.domains.events = []
  idle : ∀ p, e.agenda.isWaiting p = false

/-! ## Handing out events -/

section

variable {P : Type} [Propagator P]

theorem schedule_spec {e e' : Engine P} {p : PropagatorId} (h : e.schedule p = .ok e') :
    ∃ agenda, e' = { e with agenda } ∧ (e.agenda.Valid → agenda.Valid ∧
      ∀ q, agenda.isWaiting q = true ↔ e.agenda.isWaiting q = true ∨ q = p) := by
  obtain ⟨propagator, -, h⟩ := bind_eq_ok_iff.1 h
  obtain ⟨agenda, queued, h⟩ := bind_eq_ok_iff.1 h
  cases h
  exact ⟨agenda, rfl, fun valid =>
    ⟨Agenda.valid_enqueue valid queued, Agenda.isWaiting_enqueue queued⟩⟩

theorem foldlM_schedule_spec {l : List PropagatorId} {e e' : Engine P}
    (h : l.foldlM schedule e = .ok e') :
    ∃ agenda, e' = { e with agenda } ∧ (e.agenda.Valid → agenda.Valid ∧
      ∀ q, agenda.isWaiting q = true ↔ e.agenda.isWaiting q = true ∨ q ∈ l) := by
  induction l generalizing e with
  | nil =>
    simp only [List.foldlM_nil, pure, Except.pure, Except.ok.injEq] at h
    subst h
    exact ⟨e.agenda, rfl, fun valid => ⟨valid, by simp⟩⟩
  | cons p l ih =>
    rw [List.foldlM_cons] at h
    obtain ⟨e₁, scheduled, h⟩ := bind_eq_ok_iff.1 h
    obtain ⟨agenda₁, rfl, first⟩ := schedule_spec scheduled
    obtain ⟨agenda, rfl, rest⟩ := ih h
    refine ⟨agenda, rfl, fun valid => ?_⟩
    obtain ⟨valid₁, waiting₁⟩ := first valid
    obtain ⟨valid', waiting⟩ := rest valid₁
    refine ⟨valid', fun q => ?_⟩
    rw [waiting, waiting₁, List.mem_cons, or_assoc]

/-- Whoever waits for a pending event is put on the agenda. -/
theorem notify_spec {e e' : Engine P} (h : e.notify = .ok e') :
    ∃ agenda, e' = { e.dropEvents with agenda } ∧ (e.agenda.Valid → agenda.Valid ∧
      ∀ q, agenda.isWaiting q = true ↔ e.agenda.isWaiting q = true ∨
        ∃ v event, (v, event) ∈ e.domains.events ∧ q ∈ e.watches.affected event v) := by
  obtain ⟨agenda, rfl, known⟩ := foldlM_schedule_spec (e := e.dropEvents) h
  refine ⟨agenda, rfl, fun valid => ?_⟩
  obtain ⟨valid', waiting⟩ := known valid
  refine ⟨valid', fun q => (waiting q).trans ?_⟩
  simp [dropEvents, withDomains, List.mem_flatMap]

/-! ## Running a propagator -/

/-- A call runs the propagator in the store of the engine. -/
theorem call_spec {e e' : Engine P} {p : PropagatorId} {status : Status}
    (h : e.call p = .ok (status, e')) :
    ∃ activity q q' s', e.activity.get? p.index = some activity ∧
      e.propagators.get? p.index = some q ∧
      (Propagator.run ⟨p, activity⟩ q).run e.store = .ok ((q', status), s') ∧
      e' = { e with store := s', propagators := e.propagators.set p.index q' } := by
  obtain ⟨q, row, h⟩ := bind_eq_ok_iff.1 h
  obtain ⟨context, told, h⟩ := bind_eq_ok_iff.1 h
  obtain ⟨⟨⟨q', status'⟩, s'⟩, ran, last⟩ := bind_eq_ok_iff.1 h
  obtain ⟨activity, here, made⟩ := bind_eq_ok_iff.1 told
  cases made
  cases last
  exact ⟨activity, q, q', s', Table.read_eq_ok_iff.1 here, Table.read_eq_ok_iff.1 row, ran, rfl⟩

/-- A run of the propagator in the store of the engine is a call. -/
theorem call_eq {e : Engine P} {p : PropagatorId} {activity : CellId} {q : P}
    (here : e.activity.get? p.index = some activity) (row : e.propagators.get? p.index = some q) :
    e.call p = ((Propagator.run ⟨p, activity⟩ q).run e.store).map fun result =>
      (result.1.2,
        { e with store := result.2, propagators := e.propagators.set p.index result.1.1 }) := by
  simp only [call, context, Table.read_eq_ok_iff.2 row, Table.read_eq_ok_iff.2 here, bind,
    Except.bind, pure, Except.pure]
  cases (Propagator.run ⟨p, activity⟩ q).run e.store <;> rfl

theorem call_of_run {e : Engine P} {p : PropagatorId} {activity : CellId} {q q' : P}
    {status : Status} {s' : Store} (here : e.activity.get? p.index = some activity)
    (row : e.propagators.get? p.index = some q)
    (ran : (Propagator.run ⟨p, activity⟩ q).run e.store = .ok ((q', status), s')) :
    e.call p =
      .ok (status, { e with store := s', propagators := e.propagators.set p.index q' }) := by
  rw [call_eq here row, ran]
  rfl

theorem call_of_fault {e : Engine P} {p : PropagatorId} {activity : CellId} {q : P} {fault : Fault}
    (here : e.activity.get? p.index = some activity) (row : e.propagators.get? p.index = some q)
    (failed : (Propagator.run ⟨p, activity⟩ q).run e.store = .error fault) :
    e.call p = .error fault := by
  rw [call_eq here row, failed]
  rfl

/-- A visit does nothing if the propagator is not active, and calls it otherwise. -/
theorem visit_spec {e e' : Engine P} {p : PropagatorId} {status : Status}
    (h : e.visit p = .ok (status, e')) :
    e.isActive p = .ok false ∧ status = .ok () ∧ e' = e ∨
      e.isActive p = .ok true ∧ ∃ e₁, e.call p = .ok (status, e₁) ∧
        (status = .ok () → e' = e₁) ∧
        ((∃ cause, status = .error cause) → ∃ m, e' = (e₁.say m).abandon) := by
  obtain ⟨active, known, h⟩ := bind_eq_ok_iff.1 h
  cases active with
  | false =>
    cases h
    exact .inl ⟨known, rfl, rfl⟩
  | true =>
    obtain ⟨⟨status', e₁⟩, called, h⟩ := bind_eq_ok_iff.1 h
    refine .inr ⟨known, e₁, ?_⟩
    cases status' with
    | ok =>
      cases h
      exact ⟨called, fun _ => rfl, fun ⟨cause, eq⟩ => (by cases eq)⟩
    | error cause =>
      obtain ⟨propagator, -, h⟩ := bind_eq_ok_iff.1 h
      cases h
      exact ⟨called, fun eq => (by cases eq), fun _ => ⟨_, rfl⟩⟩

end

/-- A propagator is active while its cell is not zero. -/
theorem isActive_eq_ok {P : Type} {e : Engine P} {p : PropagatorId} {active : Bool}
    (h : e.isActive p = .ok active) :
    ∃ activity value, e.activity.get? p.index = some activity ∧
      e.store.cells.values.get? activity.index = some value ∧ active = (value != 0) := by
  obtain ⟨activity, here, h⟩ := bind_eq_ok_iff.1 h
  obtain ⟨value, read, h⟩ := bind_eq_ok_iff.1 h
  cases h
  exact ⟨activity, value, Table.read_eq_ok_iff.1 here, Cells.read_eq_ok_iff.1 read, rfl⟩

/-! ## Sanity -/

/-- Sanity does not depend on notes, on pending events, or on which valid agenda there is. -/
theorem Sane.withAgenda {e : Engine Rule} (h : e.Sane) {agenda : Agenda} (valid : agenda.Valid) :
    ({ e with agenda } : Engine Rule).Sane :=
  { h with agenda := valid }

theorem Sane.dropEvents {e : Engine Rule} (h : e.Sane) : e.dropEvents.Sane :=
  { h with store := ⟨h.store.depth, h.store.recordedRows, h.store.recordedCells,
      h.store.wellFormed, h.store.narrows⟩ }

theorem Sane.say {e : Engine Rule} (h : e.Sane) (m : Message) : (e.say m).Sane :=
  { h with store := ⟨h.store.depth, h.store.recordedRows, h.store.recordedCells,
      h.store.wellFormed, h.store.narrows⟩ }

theorem Sane.abandon {e : Engine Rule} (h : e.Sane) : e.abandon.Sane :=
  h.dropEvents.withAgenda (Agenda.valid_clear _)

/-- The store evolves and the propagator keeps its cells. -/
theorem evolves_of_call {e e' : Engine Rule} {p : PropagatorId} {status : Status} (h : e.Sane)
    (called : e.call p = .ok (status, e')) :
    e.store.Evolves (e.owned p) e'.store ∧ ∀ q, e'.owned q = e.owned q := by
  obtain ⟨activity, q, q', s', here, row, ran, rfl⟩ := call_spec called
  obtain ⟨cells, evolves⟩ := Rule.evolves_of_run h.store.wellFormed_now ran
  rw [owned_eq here row]
  refine ⟨evolves, fun other => ?_⟩
  simp only [owned, Table.get?_set, Table.lt_size_of_get? row, if_true]
  by_cases same : p.index = other.index
  · rw [← same]
    simp [here, row, cells]
  · simp [same]

theorem sane_of_call {e e' : Engine Rule} {p : PropagatorId} {status : Status} (h : e.Sane)
    (called : e.call p = .ok (status, e')) : e'.Sane := by
  obtain ⟨evolves, owned⟩ := evolves_of_call h called
  obtain ⟨activity, q, q', s', here, row, ran, rfl⟩ := call_spec called
  refine ⟨h.store.evolves evolves, h.agenda, by simpa using h.size, fun other cell mem => ?_,
    fun other => ?_, fun other other' cell mem mem' => ?_⟩
  · rw [owned] at mem
    have := h.owned_lt other cell mem
    rw [evolves.cells.size]
    exact this
  · rw [owned]
    exact h.owned_nodup other
  · rw [owned] at mem mem'
    exact h.owned_disjoint other other' cell mem mem'

/-- What propagation leaves alone: the checkpoint, the rows of earlier ones, who watches what, and
which propagators there are. -/
structure Advances (e e' : Engine Rule) : Prop where
  depth : e'.domains.depth = e.domains.depth
  past : ∀ k, k < e.domains.depth → e'.domains.past k = e.domains.past k
  narrows : e.domains.Narrows e'.domains
  watches : e'.watches = e.watches
  size : e'.propagators.size = e.propagators.size

theorem Advances.refl (e : Engine Rule) : e.Advances e :=
  ⟨rfl, fun _ _ => rfl, .refl _, rfl, rfl⟩

theorem Advances.trans {a b c : Engine Rule} (h : a.Advances b) (h' : b.Advances c) :
    a.Advances c := by
  refine ⟨h'.depth.trans h.depth, fun k below => ?_, h.narrows.trans h'.narrows,
    h'.watches.trans h.watches, h'.size.trans h.size⟩
  rw [h'.past k (by rw [h.depth]; exact below), h.past k below]

theorem advances_of_call {e e' : Engine Rule} {p : PropagatorId} {status : Status} (h : e.Sane)
    (called : e.call p = .ok (status, e')) : e.Advances e' := by
  obtain ⟨evolves, -⟩ := evolves_of_call h called
  obtain ⟨activity, q, q', s', here, row, ran, rfl⟩ := call_spec called
  exact ⟨evolves.domains.depth, evolves.domains.past, evolves.domains.narrows, rfl, by simp⟩

theorem sane_of_visit {e e' : Engine Rule} {p : PropagatorId} {status : Status} (h : e.Sane)
    (visited : e.visit p = .ok (status, e')) : e'.Sane ∧ e.Advances e' := by
  rcases visit_spec visited with ⟨-, -, rfl⟩ | ⟨-, e₁, called, done, failed⟩
  · exact ⟨h, .refl _⟩
  · have sane := sane_of_call h called
    have advances := advances_of_call h called
    cases status with
    | ok =>
      rw [done rfl]
      exact ⟨sane, advances⟩
    | error cause =>
      obtain ⟨m, rfl⟩ := failed ⟨cause, rfl⟩
      exact ⟨(sane.say m).abandon, advances.trans
        ⟨rfl, fun _ _ => rfl, Domains.narrows_dropEvents _, rfl, rfl⟩⟩

/-- One round of the fixpoint loop up to the visit: events are handed out and somebody is taken. -/
theorem round_spec {e e' : Engine Rule} {agenda : Agenda} {taken : Option PropagatorId}
    (h : e.Sane) (notified : e.notify = .ok e') (popped : e'.agenda.pop = (taken, agenda)) :
    ({ e' with agenda } : Engine Rule).Sane ∧ e.Advances { e' with agenda } ∧
      { e' with agenda } = ({ e.dropEvents with agenda } : Engine Rule) ∧
      (taken = none → ∀ q, e.agenda.isWaiting q = false ∧
        ¬ ∃ v event, (v, event) ∈ e.domains.events ∧ q ∈ e.watches.affected event v) ∧
      ∀ p, taken = some p → ∀ q, agenda.isWaiting q = true ↔ q ≠ p ∧
        (e.agenda.isWaiting q = true ∨
          ∃ v event, (v, event) ∈ e.domains.events ∧ q ∈ e.watches.affected event v) := by
  obtain ⟨queued, rfl, known⟩ := notify_spec notified
  obtain ⟨valid, waiting⟩ := known h.agenda
  refine ⟨h.dropEvents.withAgenda (Agenda.valid_pop valid popped),
    ⟨rfl, fun _ _ => rfl, Domains.narrows_dropEvents _, rfl, rfl⟩, rfl, ?_, ?_⟩
  · rintro rfl q
    rcases Agenda.pop_spec valid popped with ⟨-, empty, rfl⟩ | ⟨_, _, _, _, taken, _⟩
    · have idle := Agenda.not_isWaiting_of_pop_eq_none valid popped q
      have none := (not_congr (waiting q)).1 (by simp [idle])
      exact ⟨by simpa using fun waits => none (.inl waits), fun pending => none (.inr pending)⟩
    · cases taken
  · rintro p rfl q
    rw [Agenda.isWaiting_pop valid popped, waiting, and_comm]

/-- Propagation keeps an engine sane and its past as it was; if it succeeds, nothing is pending. -/
theorem sane_of_loop {rounds : Nat} {e e' : Engine Rule} {status : Status} (h : e.Sane)
    (ran : e.loop rounds = .ok (status, e')) :
    e'.Sane ∧ e.Advances e' ∧ (status = .ok () → e'.Quiet) := by
  induction rounds generalizing e with
  | zero => cases ran
  | succ rounds ih =>
    obtain ⟨e₁, notified, ran⟩ := bind_eq_ok_iff.1 ran
    cases popped : e₁.agenda.pop with
    | mk taken agenda =>
      obtain ⟨sane, advances, eq, none, -⟩ := round_spec h notified popped
      rw [popped] at ran
      cases taken with
      | none =>
        cases ran
        obtain ⟨queued, rfl, known⟩ := notify_spec notified
        have valid := (known h.agenda).1
        exact ⟨sane, advances, fun _ =>
          ⟨rfl, Agenda.not_isWaiting_of_pop_eq_none valid popped⟩⟩
      | some p =>
        obtain ⟨⟨status', e₂⟩, visited, ran⟩ := bind_eq_ok_iff.1 ran
        obtain ⟨sane₂, advances₂⟩ := sane_of_visit sane visited
        cases status' with
        | ok =>
          obtain ⟨sane', advances', quiet⟩ := ih sane₂ ran
          exact ⟨sane', advances.trans (advances₂.trans advances'), quiet⟩
        | error cause =>
          cases ran
          exact ⟨sane₂, advances.trans advances₂, fun eq => by cases eq⟩

end Engine

end Scheduling
