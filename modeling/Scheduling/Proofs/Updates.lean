import Scheduling.Proofs.Requests

/-!
# Updates filter the values of an interval

The values of an interval are its absence and the placements within its bounds. An update keeps
exactly those values that it allows: it fails if there is none, and then nothing changes; otherwise
it writes one row, at most, and a change of that row is recorded together with its events. This
holds of all domains that can come about, also in the middle of a propagation.

Results:
* `Domains.Reachable`: the domains that can come about.
* `Engine.Accessible.reachable`, `Store.Reaches.reachable`: those of engines and of propagators are
  among them.
* `Interval.eq_of_update?`: an update that removes no value leaves the row as it is.
* `Propagation.update_filters`: an update is exact.
-/

namespace Scheduling

/-! ## Reachable domains -/

namespace Domains

/-- The domains that new variables, decisions, checkpoints and returns lead to, where the decisions
are those of users and of propagators. -/
inductive Reachable : Domains → Prop
  | empty : Reachable .empty
  | addInteger {d : Domains} {row : IntegerDomain} (before : Reachable d)
    (wellFormed : row.WellFormed) : Reachable (d.addInteger row)
  | addInterval {d : Domains} {bounds : Bounds} {presence : Presence} {row : Interval}
    (before : Reachable d) (within : bounds.WithinHorizon)
    (made : Interval.ofBounds bounds presence = .ok row) : Reachable (d.addInterval row)
  | decide {d d' : Domains} (before : Reachable d) (decision : Decision)
    (wrote : decision.write d = .ok (some d')) : Reachable d'
  | dropEvents {d : Domains} (before : Reachable d) : Reachable d.dropEvents
  | checkpoint {d : Domains} (before : Reachable d) : Reachable d.checkpoint
  | undoTo {d d' : Domains} {k : Nat} (before : Reachable d) (undone : d.undoTo k = .ok d') :
    Reachable d'

/-- Reachable domains can be those of a sane store: cells are taken along to every checkpoint. -/
theorem Reachable.exists_sane {d : Domains} (h : d.Reachable) :
    ∃ cells, (⟨d, cells, []⟩ : Store).Sane := by
  induction h with
  | empty => exact ⟨_, Store.sane_empty⟩
  | addInteger _ wellFormed ih =>
    obtain ⟨cells, sane⟩ := ih
    exact ⟨cells, sane.addInteger wellFormed⟩
  | addInterval _ within made ih =>
    obtain ⟨cells, sane⟩ := ih
    exact ⟨cells, sane.addInterval (Interval.wellFormed_of_ofBounds within made)⟩
  | decide _ decision wrote ih =>
    obtain ⟨cells, sane⟩ := ih
    have move : (⟨_, cells, []⟩ : Store).Moves [] ⟨_, cells, []⟩ := .decide decision wrote
    exact ⟨cells, sane.evolves (move.evolves sane.wellFormed_now)⟩
  | dropEvents _ ih =>
    obtain ⟨cells, sane⟩ := ih
    exact ⟨cells, sane.depth, sane.recordedRows, sane.recordedCells, sane.wellFormed, sane.narrows⟩
  | checkpoint _ ih =>
    obtain ⟨cells, sane⟩ := ih
    exact ⟨cells.checkpoint, sane.checkpoint⟩
  | @undoTo d d' k _ undone ih =>
    obtain ⟨cells, sane⟩ := ih
    have below : k < cells.trail.depth := by
      have depth : cells.trail.depth = d.depth := sane.depth
      rw [depth]
      exact (undo_spec undone).1
    obtain ⟨cells', undone'⟩ : ∃ cells', cells.undoTo k = .ok cells' := by
      simp only [Cells.undoTo, Trail.undoTo, below, if_true, bind, Except.bind]
      exact ⟨_, rfl⟩
    exact ⟨cells', sane.undoTo undone undone'⟩

theorem Reachable.wellFormed {d : Domains} (h : d.Reachable) : d.WellFormed := by
  obtain ⟨cells, sane⟩ := h.exists_sane
  exact sane.wellFormed_now

end Domains

/-- What a propagator makes of reachable domains is reachable. -/
theorem Store.Reaches.reachable {own : List CellId} {s s' : Store} (h : s.Reaches own s')
    (before : s.domains.Reachable) : s'.domains.Reachable := by
  induction h with
  | refl => exact before
  | tail _ move ih =>
    cases move with
    | decide d wrote => exact .decide ih d wrote
    | assign mem assigned => exact ih
    | note n => exact ih

namespace Engine

variable {P : Type} [Propagator P] [Propagator.Stepwise P] {e e' : Engine P} {status : Status}

theorem Turns.reachable {turns : List (Turn P)} (h : e.Turns turns status e')
    (before : e.domains.Reachable) : e'.domains.Reachable := by
  have turn {t : Turn P} {e₁ : Engine P} {agenda : Agenda} {status : Status}
      {e : Engine P} (before : e.domains.Reachable) (notified : e.notify = .ok e₁)
      (start : t.start = { e₁ with agenda }) (taken : t.Taken status) :
      t.stop.domains.Reachable := by
    obtain ⟨queued, rfl, -⟩ := notify_spec notified
    obtain ⟨⟨own, reaches⟩, -⟩ := reaches_of_taken taken
    rw [start] at reaches
    exact reaches.reachable before.dropEvents
  induction h with
  | rest notified popped =>
    obtain ⟨queued, rfl, -⟩ := notify_spec notified
    exact before.dropEvents
  | next notified popped start taken _ ih => exact ih (turn before notified start taken)
  | failed notified popped start taken => exact (turn before notified start taken).dropEvents

theorem Moves.reachable (h : e.Moves e') (before : e.domains.Reachable) :
    e'.domains.Reachable := by
  cases h with
  | newInteger wellFormed => exact before.addInteger wellFormed
  | newInterval within made =>
    obtain ⟨row, consistent, -, rfl⟩ := newInterval_spec made
    exact before.addInterval within consistent
  | @decide _ d status changed =>
    rcases change_spec changed with ⟨domains, wrote, -, rfl⟩ | ⟨-, -, rfl⟩
    · exact before.decide d wrote
    · exact before
  | propagate ran =>
    obtain ⟨turns, given⟩ := turns_of_loop ran
    exact given.reachable before
  | install made =>
    rw [(installed_of_install made).domains]
    exact before
  | checkpoint => exact before.checkpoint
  | dropEvents => exact before.dropEvents
  | say m => exact before
  | takeNotes => exact before

/-- The domains of every engine that operations lead to are reachable. -/
theorem Accessible.reachable (h : e.Accessible) : e.domains.Reachable := by
  induction h with
  | empty => exact .empty
  | moves _ move ih => exact move.reachable ih
  | undoTo _ undone ih =>
    obtain ⟨domains, cells, first, -, rfl⟩ := undoTo_spec undone
    exact ih.undoTo first

end Engine

/-! ## Updates that remove no value -/

/-- Bounds that lose no placement are not tightened. -/
theorem Bounds.Settled.eq_of_tightens {old new : Bounds} (settled : old.Settled)
    (tighter : old.Tightens new)
    (kept : ∀ start length, old.Admits start length → new.Admits start length) : new = old := by
  obtain ⟨t1, t2, t3, t4, t5, t6⟩ := tighter
  have attained (which : Bound) : ∃ start length, new.Admits start length ∧
      which.measure start length = old.limit which := by
    obtain ⟨start, length, admits, measure⟩ := settled.exists_attains which
    exact ⟨start, length, kept start length admits, measure⟩
  obtain ⟨_, _, a1, e1⟩ := attained .startMin
  obtain ⟨_, _, a2, e2⟩ := attained .startMax
  obtain ⟨_, _, a3, e3⟩ := attained .endMin
  obtain ⟨_, _, a4, e4⟩ := attained .endMax
  obtain ⟨_, _, a5, e5⟩ := attained .lengthMin
  obtain ⟨_, _, a6, e6⟩ := attained .lengthMax
  simp only [Bound.measure, limit] at e1 e2 e3 e4 e5 e6
  have h1 := a1.startMin_le
  have h2 := a2.le_startMax
  have h3 := a3.endMin_le
  have h4 := a4.le_endMax
  have h5 := a5.lengthMin_le
  have h6 := a6.le_lengthMax
  cases old
  cases new
  simp only [mk.injEq] at *
  omega

namespace Interval

/-- An update that removes no value leaves the row as it is. -/
theorem eq_of_update? {v w : Interval} {u : Update} (h : v.WellFormed)
    (updated : v.update? u = some w) (kept : ∀ value, v.Admits value → u.Keeps value) : w = v := by
  have stays (value : IntervalValue) (admits : v.Admits value) : w.Admits value :=
    (admits_of_update? h updated).2 ⟨admits, kept value admits⟩
  obtain ⟨-, decided, tighter⟩ := narrows_of_update? h updated
  by_cases absent : v.isAbsent = true
  · exact isAbsent_of_update? absent updated
  have there : v.presence ≠ .absent := by simpa [isAbsent] using absent
  have bounds : w.toBounds = v.toBounds :=
    Bounds.Settled.eq_of_tightens h tighter fun start length admits =>
      (stays (.placed start length) ⟨there, admits⟩).2
  have presence : w.presence = v.presence := by
    rcases decided with optional | same
    · obtain ⟨start, length, admits⟩ := Bounds.Settled.exists_admits h
      have placed := (stays (.placed start length) ⟨there, admits⟩).1
      have absent : w.presence ≠ .present := stays .absent (by simp [Admits, optional])
      cases here : w.presence <;> simp_all
    · exact same
  cases v
  cases w
  simp_all

end Interval

/-! ## Exact updates -/

namespace Propagation

variable {s : Store} {i : IntervalId} {v : Interval}

/-- What an update does to the store. -/
theorem exec_update (row : s.domains.interval i = .ok v) (u : Update) :
    exec (update i u) s = .ok (match v.update? u with
      | none => (.error .emptyDomain, s)
      | some w => (.ok (), if w = v then s else
        { s with
          domains := ({ s.domains with
            intervals := s.domains.intervals.set i.index w } : Domains).commit
              (.interval i v) (.interval i) (v.eventsTo w) })) := by
  simp only [update, exec_change, Domains.update, row, bind, Except.bind]
  cases v.update? u with
  | none => rfl
  | some w =>
    simp only
    split
    · rfl
    · rfl

/-- An update of an interval is exact. It fails exactly if it allows no value of the interval, and
then leaves the store as it is. If it succeeds, the values of the interval are those that it allows
of the ones before. The row is the same as before exactly if all of them are allowed, and then again
nothing changes; otherwise the row from before is recorded on the trail and at least one event of
the interval is pending. All other rows, the cells and the notes stay. -/
theorem update_filters (reachable : s.domains.Reachable) (row : s.domains.interval i = .ok v)
    (u : Update) :
    ∃ status s', exec (update i u) s = .ok (status, s') ∧
      ((∃ cause, status = .error cause) ↔ ∀ value, v.Admits value → ¬ u.Keeps value) ∧
      (∀ cause, status = .error cause → cause = .emptyDomain ∧ s' = s) ∧
      (status = .ok () → ∃ w, s'.domains.interval i = .ok w ∧
        (∀ value, w.Admits value ↔ v.Admits value ∧ u.Keeps value) ∧
        (w = v ↔ ∀ value, v.Admits value → u.Keeps value) ∧
        (w = v → s' = s) ∧
        (w ≠ v → s'.domains.trail = s.domains.trail.push (.interval i v) ∧
          ∃ events : List Event, events ≠ [] ∧
            s'.domains.events = s.domains.events ++ events.map fun e => (.interval i, e)) ∧
        (∀ j, j ≠ i → s'.domains.interval j = s.domains.interval j) ∧
        (∀ x, s'.domains.integer x = s.domains.integer x) ∧
        s'.cells = s.cells ∧ s'.notes = s.notes) := by
  have wellFormed : v.WellFormed := reachable.wellFormed.interval i v row
  have ran := exec_update row u
  cases updated : v.update? u with
  | none =>
    rw [updated] at ran
    refine ⟨.error .emptyDomain, s, ran, ⟨fun _ value => ?_, fun _ => ⟨_, rfl⟩⟩, ?_, ?_⟩
    · exact Interval.not_keeps_of_update?_eq_none wellFormed updated
    · rintro cause ⟨⟩
      exact ⟨rfl, rfl⟩
    · rintro ⟨⟩
  | some w =>
    have filtered (value : IntervalValue) : w.Admits value ↔ v.Admits value ∧ u.Keeps value :=
      Interval.admits_of_update? wellFormed updated
    have left : ¬ ∀ value, v.Admits value → ¬ u.Keeps value := fun none => by
      obtain ⟨value, admits⟩ := (Interval.narrows_of_update? wellFormed updated).1.exists_admits
      obtain ⟨before, keeps⟩ := (filtered value).1 admits
      exact none value before keeps
    have all : w = v ↔ ∀ value, v.Admits value → u.Keeps value :=
      ⟨fun same value admits => ((filtered value).1 (same ▸ admits)).2,
        Interval.eq_of_update? wellFormed updated⟩
    rw [updated] at ran
    refine ⟨.ok (), _, ran, iff_of_false (by rintro ⟨cause, ⟨⟩⟩) left, ?_,
      fun _ => ⟨w, ?_, filtered, all, fun same => if_pos same, ?_, ?_⟩⟩
    · rintro cause ⟨⟩
    · split
      · rename_i same
        rw [row, same]
      · exact (Domains.interval_set_commit row w _ i).trans (if_pos rfl)
    · intro changed
      obtain ⟨event, mem, -⟩ := Interval.exists_event_of_update? wellFormed updated changed
      rw [if_neg changed]
      exact ⟨rfl, v.eventsTo w, List.ne_nil_of_mem mem, rfl⟩
    · split
      · exact ⟨fun _ _ => rfl, fun _ => rfl, rfl, rfl⟩
      · exact ⟨fun j differs => (Domains.interval_set_commit row w _ j).trans
          (if_neg differs.symm), fun _ => rfl, rfl, rfl⟩

end Propagation

/-! ## An interval that becomes absent -/

namespace Guest

/-- An optional interval of which a decision has lowered the latest start. -/
def requests : List (Request Rule) :=
  [.newInterval 0 20 3 5 true, .checkpoint, .decide (.update ⟨0⟩ (.bound .startMax 12))]

def solver : Solver Rule := (requests.forM Request.perform).after .empty

def visit : Interval := ⟨⟨0, 12, 3, 17, 3, 5⟩, .optional⟩

theorem reachable : solver.engine.store.domains.Reachable := by
  have performed : (requests.forM Request.perform).answer? (.empty : Solver Rule) = some () := by
    cbv
  exact (Request.accessible (Session.run_eq_of_answer? performed) .empty).reachable

theorem row : solver.engine.store.domains.interval ⟨0⟩ = .ok visit := by cbv

end Guest

open Guest in
/-- Moving the earliest start beyond the latest one leaves absence, and this only. -/
theorem Propagation.update_filters_guest :
    solver.engine.store.domains.Reachable ∧
      solver.engine.store.domains.interval ⟨0⟩ = .ok visit ∧
      ∃ s' w, exec (update ⟨0⟩ (.bound .startMin 30)) solver.engine.store = .ok (.ok (), s') ∧
        s'.domains.interval ⟨0⟩ = .ok w ∧ w.Admits .absent ∧
        (∀ start length, ¬ w.Admits (.placed start length)) ∧
        s'.domains.trail = solver.engine.store.domains.trail.push (.interval ⟨0⟩ visit) ∧
        s'.domains.events ≠ [] := by
  have absent : visit.Admits .absent := by simp [Interval.Admits, visit]
  refine ⟨reachable, row, ?_⟩
  obtain ⟨status, s', ran, fails, -, succeeds⟩ := update_filters reachable row (.bound .startMin 30)
  cases status with
  | error cause => exact absurd trivial (fails.1 ⟨cause, rfl⟩ .absent absent)
  | ok =>
    obtain ⟨w, row', filtered, all, -, changes, -⟩ := succeeds rfl
    have some : visit.Admits (.placed 0 3) := by
      refine ⟨by decide, ?_⟩
      constructor <;> decide
    have changed : w ≠ visit := fun same => by
      simpa [Update.Keeps, Bound.Keeps] using all.1 same _ some
    obtain ⟨recorded, events, reported, pending⟩ := changes changed
    refine ⟨s', w, ran, row', (filtered _).2 ⟨absent, trivial⟩, fun start length admits => ?_,
      recorded, by simp [pending, reported]⟩
    obtain ⟨⟨-, -, upTo, -⟩, keeps⟩ := (filtered _).1 admits
    simp only [Update.Keeps, Bound.Keeps, visit] at upTo keeps
    omega

end Scheduling
