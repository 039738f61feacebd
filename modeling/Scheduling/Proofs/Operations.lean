import Scheduling.Proofs.Guarantee

/-!
# Operations on engines

New variables, decisions, checkpoints and new propagators, apart from the propagation that follows
them. All of them keep an engine sane and what is tracked about a propagator.

Results:
* `Engine.sane_newInteger`, `Engine.sane_newInterval`, `Engine.sane_checkpoint`,
  `Engine.sane_undoTo`, `Engine.sane_change`, `Engine.sane_install`: sanity.
* `Guarantee.Tracks.newInteger` and its companions: tracking.
* `Guarantee.tracks_of_install`: what has to hold when a propagator is added.
-/

namespace Scheduling

/-! ## New variables -/

/-- A new interval has the given presence, and all placements within the given bounds. -/
theorem Interval.ofBounds_spec {bounds : Bounds} {presence : Presence} {row : Interval}
    (within : bounds.WithinHorizon) (h : Interval.ofBounds bounds presence = .ok row) :
    row.presence = presence ∧ row.WellFormed ∧ bounds.Tightens row.toBounds ∧
      ∀ start length, bounds.Admits start length → row.toBounds.Admits start length := by
  unfold Interval.ofBounds at h
  split at h
  · rename_i settled consistent
    cases h
    exact ⟨rfl, Bounds.settled_of_propagate_eq_true (.inr within) consistent⟩
  · cases h

theorem Interval.wellFormed_of_ofBounds {bounds : Bounds} {presence : Presence} {row : Interval}
    (within : bounds.WithinHorizon) (h : Interval.ofBounds bounds presence = .ok row) :
    row.WellFormed :=
  (Interval.ofBounds_spec within h).2.1

/-- The bounds of a new interval are at least as tight as those that were given. -/
theorem Interval.tightens_of_ofBounds {bounds : Bounds} {presence : Presence} {row : Interval}
    (within : bounds.WithinHorizon) (h : Interval.ofBounds bounds presence = .ok row) :
    bounds.Tightens row.toBounds :=
  (Interval.ofBounds_spec within h).2.2.1

namespace Engine

theorem sane_newInteger {e : Engine Rule} (h : e.Sane) {row : IntegerDomain}
    (wellFormed : row.WellFormed) : (e.newInteger row).2.Sane :=
  { h with store := h.store.addInteger wellFormed }

theorem sane_addInterval {e : Engine Rule} (h : e.Sane) {row : Interval}
    (wellFormed : row.WellFormed) : (e.withDomains (e.domains.addInterval row)).Sane :=
  { h with store := h.store.addInterval wellFormed }

/-- What adding an interval does to an engine. -/
theorem newInterval_spec {P : Type} {e e' : Engine P} {bounds : Bounds} {presence : Presence}
    {i : IntervalId} (h : e.newInterval bounds presence = .ok (i, e')) :
    ∃ row, Interval.ofBounds bounds presence = .ok row ∧ i = e.domains.nextInterval ∧
      e' = e.withDomains (e.domains.addInterval row) := by
  obtain ⟨row, made, h⟩ := bind_eq_ok_iff.1 h
  cases h
  exact ⟨row, made, rfl, rfl⟩

/-! ## Checkpoints -/

theorem sane_checkpoint {e : Engine Rule} (h : e.Sane) : e.checkpoint.Sane :=
  { h with store := h.store.checkpoint }

/-- What returning to a checkpoint does to an engine. -/
theorem undoTo_spec {P : Type} {e e' : Engine P} {k : Nat} (h : e.undoTo k = .ok e') :
    ∃ domains cells, e.domains.undoTo k = .ok domains ∧ e.store.cells.undoTo k = .ok cells ∧
      e' = { e with store := { e.store with domains, cells }, agenda := e.agenda.clear } := by
  simp only [undoTo, bind, Except.bind] at h
  split at h
  · cases h
  · split at h
    · cases h
    · rename_i store undone
      cases h
      obtain ⟨domains, first, undone⟩ := bind_eq_ok_iff.1 undone
      obtain ⟨cells, second, undone⟩ := bind_eq_ok_iff.1 undone
      cases undone
      exact ⟨domains, cells, first, second, rfl⟩

theorem sane_undoTo {e e' : Engine Rule} {k : Nat} (h : e.Sane) (undone : e.undoTo k = .ok e') :
    e'.Sane := by
  obtain ⟨domains, cells, first, second, rfl⟩ := undoTo_spec undone
  have past := (Cells.undo_spec second).2.2.1 cells.depth
  rw [Cells.past_of_depth_le (Nat.le_refl _)] at past
  refine ⟨h.store.undoTo first second, Agenda.valid_clear _, h.size, fun p cell mem => ?_,
    h.owned_nodup, h.owned_disjoint⟩
  show cell.index < cells.values.size
  rw [past, Cells.size_past]
  exact h.owned_lt p cell mem

/-! ## Decisions -/

/-- A write that evolves well-formed domains. -/
def Writes (write : Domains → Except Fault (Option Domains)) : Prop :=
  ∀ d d', d.WellFormed → write d = .ok (some d') → d'.WellFormed ∧ d.Evolves d'

theorem change_spec {P : Type} {e e' : Engine P} {write : Domains → Except Fault (Option Domains)}
    {status : Status} (h : e.change write = .ok (status, e')) :
    (∃ domains, write e.domains = .ok (some domains) ∧ status = .ok () ∧
      e' = e.withDomains domains) ∨
      write e.domains = .ok none ∧ status = .error .emptyDomain ∧ e' = e := by
  obtain ⟨left, wrote, h⟩ := bind_eq_ok_iff.1 h
  cases left with
  | none =>
    cases h
    exact .inr ⟨wrote, rfl, rfl⟩
  | some domains =>
    cases h
    exact .inl ⟨domains, wrote, rfl, rfl⟩

theorem evolves_of_change {e e' : Engine Rule} {write : Domains → Except Fault (Option Domains)}
    {status : Status} (h : e.Sane) (writes : Writes write)
    (changed : e.change write = .ok (status, e')) : e.store.Evolves [] e'.store := by
  rcases change_spec changed with ⟨domains, wrote, -, rfl⟩ | ⟨-, -, rfl⟩
  · obtain ⟨wellFormed, evolves⟩ := writes e.domains domains h.wellFormed_now wrote
    exact ⟨wellFormed, evolves, .refl _⟩
  · exact .refl h.wellFormed_now

theorem sane_change {e e' : Engine Rule} {write : Domains → Except Fault (Option Domains)}
    {status : Status} (h : e.Sane) (writes : Writes write)
    (changed : e.change write = .ok (status, e')) : e'.Sane := by
  have store := h.store.evolves (evolves_of_change h writes changed)
  rcases change_spec changed with ⟨domains, -, -, rfl⟩ | ⟨-, -, rfl⟩
  · exact { h with store }
  · exact h

/-! ## New propagators -/

end Engine

/-- The propagator uses exactly the cells that it asks for. -/
def Blueprint.Standard (b : Blueprint Rule) : Prop :=
  ∀ p cell, (b.build p cell).cells = (List.range b.cells.length).map fun i => ⟨cell.index + i⟩

/-- The watch tells of the event. -/
def Watch.Tells (w : Watch) (v : Watched) (event : Event) : Prop :=
  match w with
  | .variable x events => v = .integer x.base ∧ event ∈ x.watch events
  | .interval i events => v = .interval i ∧ event ∈ events

theorem WatchLists.mem_affected_register {w : WatchLists} {p q : PropagatorId} {watch : Watch}
    {v : Watched} {event : Event} :
    q ∈ (w.register p watch).affected event v ↔
      q ∈ w.affected event v ∨ watch.Tells v event ∧ q = p := by
  cases watch <;> simp only [register, mem_affected_subscribe, Watch.Tells] <;> grind

theorem WatchLists.mem_affected_foldl_register {watches : List Watch} {w : WatchLists}
    {p q : PropagatorId} {v : Watched} {event : Event} :
    q ∈ (watches.foldl (·.register p ·) w).affected event v ↔
      q ∈ w.affected event v ∨ (∃ watch ∈ watches, watch.Tells v event) ∧ q = p := by
  induction watches generalizing w with
  | nil => simp
  | cons watch watches ih =>
    rw [List.foldl_cons, ih, mem_affected_register]
    grind

theorem Table.get?_foldl_push {α : Type} (l : List α) (t : Table α) (key : Nat) :
    (l.foldl push t).get? key = if key < t.size then t.get? key else l[key - t.size]? := by
  induction l generalizing t with
  | nil =>
    split
    · rfl
    · rename_i beyond
      simp [get?_eq_none_iff.2 (Nat.le_of_not_lt beyond)]
  | cons a l ih =>
    rw [List.foldl_cons, ih, size_push, get?_push]
    by_cases old : key < t.size
    · simp [old, show key < t.size + 1 by omega, show key ≠ t.size by omega]
    · by_cases here : key = t.size
      · simp [here]
      · have index : key - t.size = (key - (t.size + 1)) + 1 := by omega
        simp [old, show ¬ key < t.size + 1 by omega, index]

theorem Table.size_foldl_push {α : Type} (l : List α) (t : Table α) :
    (l.foldl push t).size = t.size + l.length := by
  induction l generalizing t with
  | nil => rfl
  | cons a l ih => rw [List.foldl_cons, ih, size_push, List.length_cons]; omega

namespace Cells

theorem foldl_grow_spec {c : Cells} (recorded : c.Recorded) (values : List Int) :
    (values.foldl grow c).Recorded ∧ (values.foldl grow c).depth = c.depth ∧
      (values.foldl grow c).values = values.foldl Table.push c.values ∧
      ∀ k, (values.foldl grow c).past k = values.foldl Table.push (c.past k) := by
  induction values generalizing c with
  | nil => exact ⟨recorded, rfl, rfl, fun _ => rfl⟩
  | cons value values ih =>
    obtain ⟨recorded', depth, now, past⟩ := ih (recorded_grow recorded value)
    refine ⟨recorded', depth, now, fun k => ?_⟩
    rw [List.foldl_cons, past, past_grow recorded]
    rfl

end Cells

namespace Engine

/-- What adding a propagator does to an engine, apart from its notes. -/
structure Installed {P : Type} (e : Engine P) (b : Blueprint P) (p : PropagatorId) (e' : Engine P) :
    Prop where
  key : p = ⟨e.propagators.size⟩
  domains : e'.domains = e.domains
  cells : e'.store.cells = (1 :: b.cells).foldl Cells.grow e.store.cells
  watches : e'.watches = b.watches.foldl (·.register p ·) e.watches
  propagators : e'.propagators =
    e.propagators.push (b.build p ⟨e.store.cells.values.size + 1⟩)
  activity : e'.activity = e.activity.push ⟨e.store.cells.values.size⟩
  valid : e.agenda.Valid → e'.agenda.Valid
  waits : e.agenda.Valid → ∀ q, e'.agenda.isWaiting q = true ↔ e.agenda.isWaiting q = true ∨ q = p
  serves : ∀ n, e.agenda.Serves n → p.index < n → e'.agenda.Serves n

theorem installed_of_install {P : Type} [Propagator P] {e e' : Engine P} {b : Blueprint P}
    {p : PropagatorId} (h : e.install b = .ok (p, e')) : e.Installed b p e' := by
  obtain ⟨e₁, scheduled, h⟩ := bind_eq_ok_iff.1 h
  cases h
  obtain ⟨propagator, -, scheduled⟩ := bind_eq_ok_iff.1 scheduled
  obtain ⟨agenda, queued, scheduled⟩ := bind_eq_ok_iff.1 scheduled
  cases scheduled
  refine ⟨rfl, rfl, rfl, rfl, ?_, rfl, fun valid => Agenda.valid_enqueue valid queued,
    fun _ => Agenda.isWaiting_enqueue queued, fun _ serves known => serves.enqueue known queued⟩
  simp [Cells.grow, Cells.next]

theorem Installed.owned {e e' : Engine Rule} {b : Blueprint Rule} {p : PropagatorId}
    (h : e.Installed b p e') (standard : b.Standard) (size : e.activity.size = e.propagators.size)
    (q : PropagatorId) :
    e'.owned q = if q = p then (List.range (b.cells.length + 1)).map
      fun i => ⟨e.store.cells.values.size + i⟩ else e.owned q := by
  simp only [Engine.owned, h.activity, h.propagators, Table.get?_push, size]
  by_cases same : q.index = e.propagators.size
  · obtain rfl : q = p := by rw [h.key]; cases q; simp_all
    simp only [same, if_true, standard q]
    rw [List.range_succ_eq_map, List.map_cons, List.map_map]
    simp only [Nat.add_zero, List.cons.injEq, true_and]
    apply List.map_congr_left
    intro i _
    simp only [Function.comp, CellId.mk.injEq]
    omega
  · have : q ≠ p := fun eq => same (by rw [eq, h.key])
    simp [same, this]

theorem Installed.sane_store {P : Type} {e e' : Engine P} {b : Blueprint P} {p : PropagatorId}
    (h : e.Installed b p e') (sane : e.store.Sane) : e'.store.Sane := by
  obtain ⟨recorded, depth, -⟩ := Cells.foldl_grow_spec sane.recordedCells (1 :: b.cells)
  have domains : e'.store.domains = e.store.domains := h.domains
  refine ⟨?_, ?_, ?_, ?_, ?_⟩
  · rw [h.cells, depth, domains]
    exact sane.depth
  · rw [domains]
    exact sane.recordedRows
  · rw [h.cells]
    exact recorded
  · rw [domains]
    exact sane.wellFormed
  · rw [domains]
    exact sane.narrows

theorem Installed.sane {e e' : Engine Rule} {b : Blueprint Rule} {p : PropagatorId}
    (h : e.Installed b p e') (sane : e.Sane) (standard : b.Standard) : e'.Sane := by
  obtain ⟨-, -, values, -⟩ := Cells.foldl_grow_spec sane.store.recordedCells (1 :: b.cells)
  have bound : e'.store.cells.values.size = e.store.cells.values.size + (b.cells.length + 1) := by
    rw [h.cells, values, Table.size_foldl_push, List.length_cons]
  have owned := h.owned standard sane.size
  have fresh (i : Nat) (q : PropagatorId) : (⟨e.store.cells.values.size + i⟩ : CellId) ∉ e.owned q :=
    fun mem => by
      have := sane.owned_lt q _ mem
      simp only at this
      omega
  refine ⟨h.sane_store sane.store, h.valid sane.agenda, ?_, fun q cell mem => ?_, fun q => ?_,
    fun q q' cell mem mem' => ?_⟩
  · rw [h.activity, h.propagators, Table.size_push, Table.size_push, sane.size]
  · rw [owned] at mem
    split at mem
    · obtain ⟨i, inside, rfl⟩ := List.mem_map.1 mem
      have := List.mem_range.1 inside
      simp only
      omega
    · have := sane.owned_lt q cell mem
      omega
  · rw [owned]
    split
    · refine List.Nodup.map (fun i j same => ?_) List.nodup_range
      simp only [CellId.mk.injEq] at same
      omega
    · exact sane.owned_nodup q
  · rw [owned] at mem mem'
    split at mem <;> split at mem'
    · simp_all
    · obtain ⟨i, -, rfl⟩ := List.mem_map.1 mem
      exact absurd mem' (fresh i q')
    · obtain ⟨i, -, rfl⟩ := List.mem_map.1 mem'
      exact absurd mem (fresh i q)
    · exact sane.owned_disjoint q q' cell mem mem'

end Engine

/-! ## What is tracked -/

namespace Guarantee

variable {G : Guarantee} {e e' : Engine Rule} {p : PropagatorId} {activity : CellId} {q : Rule}

theorem Tracks.newInteger (h : G.Tracks e p activity q) (lawful : G.Lawful) (sane : e.Sane)
    {row : IntegerDomain} (wellFormed : row.WellFormed) :
    G.Tracks (e.newInteger row).2 p activity q := by
  refine h.transport lawful sane (Engine.sane_newInteger sane wellFormed) id (fun _ _ => id) h.here
    h.row (fun k => ?_) (fun _ _ _ => rfl) fun _ _ => id
  show (e.domains.past k).Narrows ((e.domains.addInteger row).past k)
  rw [Domains.past_addInteger (d := e.domains) sane.store.recordedRows]
  exact Domains.narrows_addInteger _ _

theorem Tracks.addInterval (h : G.Tracks e p activity q) (lawful : G.Lawful) (sane : e.Sane)
    {row : Interval} (wellFormed : row.WellFormed) :
    G.Tracks (e.withDomains (e.domains.addInterval row)) p activity q := by
  refine h.transport lawful sane (Engine.sane_addInterval sane wellFormed) id (fun _ _ => id) h.here
    h.row (fun k => ?_) (fun _ _ _ => rfl) fun _ _ => id
  show (e.domains.past k).Narrows ((e.domains.addInterval row).past k)
  rw [Domains.past_addInterval (d := e.domains) sane.store.recordedRows]
  exact Domains.narrows_addInterval _ _

/-- New variables do not make domains less acceptable. -/
theorem Tracks.accepts_newInteger (h : G.Tracks e p activity q) (lawful : G.Lawful) (sane : e.Sane)
    {row : IntegerDomain} (wellFormed : row.WellFormed) {k : Nat}
    (accepts : G.Accepts (e.domains.past k)) :
    G.Accepts ((e.newInteger row).2.domains.past k) := by
  show G.Accepts ((e.domains.addInteger row).past k)
  rw [Domains.past_addInteger (d := e.domains) sane.store.recordedRows]
  exact (lawful.accepts_or_watches (h.invariant k) (sane.store.wellFormed k)
    (Domains.wellFormed_addInteger (sane.store.wellFormed k) wellFormed)
    (Domains.narrows_addInteger _ _) (Domains.reports_addInteger _ _) accepts).resolve_right
    (by simp)

theorem Tracks.accepts_addInterval (h : G.Tracks e p activity q) (lawful : G.Lawful)
    (sane : e.Sane) {row : Interval} (wellFormed : row.WellFormed) {k : Nat}
    (accepts : G.Accepts (e.domains.past k)) :
    G.Accepts ((e.withDomains (e.domains.addInterval row)).domains.past k) := by
  show G.Accepts ((e.domains.addInterval row).past k)
  rw [Domains.past_addInterval (d := e.domains) sane.store.recordedRows]
  exact (lawful.accepts_or_watches (h.invariant k) (sane.store.wellFormed k)
    (Domains.wellFormed_addInterval (sane.store.wellFormed k) wellFormed)
    (Domains.narrows_addInterval _ _) (Domains.reports_addInterval _ _) accepts).resolve_right
    (by simp)

theorem Tracks.checkpoint (h : G.Tracks e p activity q) : G.Tracks e.checkpoint p activity q := by
  refine ⟨h.here, h.row, fun k => ?_, fun j k le => ?_, h.watched⟩
  · show G.Invariant activity q (e.domains.checkpoint.past k) (e.store.cells.checkpoint.past k)
    rw [Domains.past_checkpoint, Cells.past_checkpoint]
    exact h.invariant k
  · show q.Older (e.store.cells.checkpoint.past j) (e.store.cells.checkpoint.past k)
    rw [Cells.past_checkpoint, Cells.past_checkpoint]
    exact h.older j k le

theorem Tracks.undoTo (h : G.Tracks e p activity q) {k : Nat} (undone : e.undoTo k = .ok e') :
    G.Tracks e' p activity q ∧ k < e.domains.depth ∧
      ∀ j, e'.domains.past j = e.domains.past (min k j) := by
  obtain ⟨domains, cells, first, second, rfl⟩ := Engine.undoTo_spec undone
  obtain ⟨below, -, -, past, -⟩ := Domains.undo_spec first
  obtain ⟨-, -, past', -⟩ := Cells.undo_spec second
  refine ⟨⟨h.here, h.row, fun j => ?_, fun j j' le => ?_, h.watched⟩, below, past⟩
  · show G.Invariant activity q (domains.past j) (cells.past j)
    rw [past, past']
    exact h.invariant _
  · show q.Older (cells.past j) (cells.past j')
    rw [past', past']
    exact h.older _ _ (by omega)

theorem Tracks.change (h : G.Tracks e p activity q) (lawful : G.Lawful) (sane : e.Sane)
    {write : Domains → Except Fault (Option Domains)} (writes : Engine.Writes write)
    {status : Status} (changed : e.change write = .ok (status, e')) :
    G.Tracks e' p activity q := by
  have evolves := Engine.evolves_of_change sane writes changed
  have sane' := Engine.sane_change sane writes changed
  have same : e'.activity = e.activity ∧ e'.propagators = e.propagators ∧
      e'.watches = e.watches := by
    rcases Engine.change_spec changed with ⟨domains, -, -, rfl⟩ | ⟨-, -, rfl⟩ <;>
      exact ⟨rfl, rfl, rfl⟩
  exact h.evolves lawful sane sane' evolves (by simp) (by rw [same.1]; exact h.here)
    (by rw [same.2.1]; exact h.row) same.2.2

/-- Adding a propagator does not touch another one. -/
theorem Tracks.install (h : G.Tracks e p activity q) (lawful : G.Lawful) (sane : e.Sane)
    {b : Blueprint Rule} {new : PropagatorId} (standard : b.Standard)
    (installed : e.Installed b new e') : G.Tracks e' p activity q := by
  have past := (Cells.foldl_grow_spec sane.store.recordedCells (1 :: b.cells)).2.2.2
  refine h.transport lawful sane (installed.sane sane standard) id (fun _ _ => id) ?_ ?_
    (fun k => ?_) (fun k cell mem => ?_) fun v event waits => ?_
  · have := Table.lt_size_of_get? h.here
    rw [installed.activity, Table.get?_push, if_neg (by omega), h.here]
  · have := Table.lt_size_of_get? h.row
    rw [installed.propagators, Table.get?_push, if_neg (by omega), h.row]
  · rw [installed.domains]
    exact .refl _
  · have inside := sane.owned_lt p cell mem
    rw [installed.cells, past, Table.get?_foldl_push, Cells.size_past, if_pos inside]
    rfl
  · rw [installed.watches, WatchLists.mem_affected_foldl_register]
    exact .inl waits

/-- A new propagator is tracked if its invariant holds, with the first values of its cells, for all
states that the engine may return to. -/
theorem tracks_of_install {b : Blueprint Rule} (sane : e.Sane) (installed : e.Installed b p e')
    (standard : b.Standard)
    (watches : ∀ v event, G.Watches v event → ∃ watch ∈ b.watches, watch.Tells v event)
    (starts : ∀ k, G.Invariant ⟨e.store.cells.values.size⟩
      (b.build p ⟨e.store.cells.values.size + 1⟩) (e.domains.past k)
      ((1 :: b.cells).foldl Table.push (e.store.cells.past k))) :
    G.Tracks e' p ⟨e.store.cells.values.size⟩ (b.build p ⟨e.store.cells.values.size + 1⟩) ∧
      e'.Attends p := by
  have past := (Cells.foldl_grow_spec sane.store.recordedCells (1 :: b.cells)).2.2.2
  refine ⟨⟨?_, ?_, fun k => ?_, fun j k le cell mem => ?_, fun v event waits => ?_⟩, .inl ?_⟩
  · rw [installed.activity, Table.get?_push, installed.key, if_pos sane.size.symm]
  · rw [installed.propagators, Table.get?_push, installed.key]
    simp
  · rw [installed.domains, installed.cells, past]
    exact starts k
  · have own := (b.build p _).sizes_subset mem
    rw [standard] at own
    obtain ⟨i, inside, rfl⟩ := List.mem_map.1 own
    rw [installed.cells, past, past, Table.get?_foldl_push, Table.get?_foldl_push, Cells.size_past,
      Cells.size_past, if_neg (by simp only; omega), if_neg (by simp only; omega)]
  · rw [installed.watches, WatchLists.mem_affected_foldl_register]
    exact .inr ⟨watches v event waits, rfl⟩
  · rw [installed.waits sane.agenda]
    exact .inr rfl

end Guarantee

end Scheduling
