import Scheduling.Proofs.Soundness

/-!
# Turns of the fixpoint loop

The fixpoint loop gives turns to the waiting propagators, one after the other. An inactive
propagator lets its turn pass, an active one is called. What is shown here holds of propagators of
any kind, as long as they work on the store through their context only.

Results:
* `Propagator.Stepwise`: the propagators that work through their context only.
* `Engine.Turns`, `Engine.turns_of_loop`: the turns that the loop gives.
* `Engine.Turns.continues`: nothing is pending after the turns, and domains only shrink.
* `Engine.Turns.exists_turn`: in a propagation that succeeds everybody who attends gets a turn.
* `Engine.Moves`, `Engine.Accessible`: what operations do to engines, and the engines that they lead
  to.
* `Engine.no_event_is_lost`: every event that is pending at the start, or recorded in a turn, is
  followed by a turn of every propagator that waits for it.
-/

namespace Scheduling

/-- Propagators act on the store by the steps of a context, and in no other way. The lemmas
`Propagation.performs_bind`, `Propagation.performs_change` and the like show this of all computations
that are made of such steps. -/
class Propagator.Stepwise (P : Type) [Propagator P] : Prop where
  reaches : ∀ {context : Context} {q q' : P} {status : Status} {s s' : Store},
    (Propagator.run context q).run s = .ok ((q', status), s') → ∃ own, s.Reaches own s'

instance : Propagator.Stepwise Rule := ⟨fun ran => ⟨_, (Rule.reaches_of_run ran).2⟩⟩

instance {P : Type} [Propagator P] [Propagator.Stepwise P] : Propagator.Contextual P where
  evolves wellFormed ran := by
    obtain ⟨own, reaches⟩ := Propagator.Stepwise.reaches ran
    exact ⟨own, reaches.evolves wellFormed⟩

/-- The turn of a propagator, with the engine before and after it. -/
structure Turn (P : Type) where
  propagator : PropagatorId
  start : Engine P
  stop : Engine P

namespace Turn

variable {P : Type}

/-- During the turn the event is pending. -/
def Records (t : Turn P) (v : Watched) (event : Event) : Prop :=
  ∃ own s, t.start.store.Reaches own s ∧ s.Reaches own t.stop.store ∧ (v, event) ∈ s.domains.events

/-- An inactive propagator lets its turn pass, an active one is called. -/
inductive Taken [Propagator P] : Turn P → Status → Prop
  | passed {p : PropagatorId} {e : Engine P} (inactive : e.isActive p = .ok false) :
    Taken ⟨p, e, e⟩ (.ok ())
  | called {p : PropagatorId} {e e' : Engine P} {status : Status} (active : e.isActive p = .ok true)
    (called : e.call p = .ok (status, e')) : Taken ⟨p, e, e'⟩ status

/-- An event that is recorded stays pending until the turn ends. -/
theorem mem_events_of_records {t : Turn P} {v : Watched} {event : Event}
    (sane : t.start.store.Sane) (records : t.Records v event) :
    (v, event) ∈ t.stop.domains.events := by
  obtain ⟨own, s, first, second, mem⟩ := records
  have before := first.evolves sane.wellFormed_now
  obtain ⟨more, events, -⟩ := (second.evolves before.wellFormed).domains.reported
  show (v, event) ∈ t.stop.store.domains.events
  rw [events]
  exact List.mem_append_left _ mem

end Turn

namespace Engine

variable {P : Type} [Propagator P] {e e' : Engine P} {status : Status} {p : PropagatorId}

/-- The turns that the fixpoint loop gives from an engine on, the outcome, and the engine that is
left. Before each turn the pending events are handed out. -/
inductive Turns : Engine P → List (Turn P) → Status → Engine P → Prop
  | rest {e e₁ : Engine P} {agenda : Agenda} (notified : e.notify = .ok e₁)
    (popped : e₁.agenda.pop = (none, agenda)) : Turns e [] (.ok ()) { e₁ with agenda }
  | next {e e₁ e' : Engine P} {agenda : Agenda} {t : Turn P} {rest : List (Turn P)} {status : Status}
    (notified : e.notify = .ok e₁) (popped : e₁.agenda.pop = (some t.propagator, agenda))
    (start : t.start = { e₁ with agenda }) (taken : t.Taken (.ok ()))
    (left : Turns t.stop rest status e') : Turns e (t :: rest) status e'
  | failed {e e₁ : Engine P} {agenda : Agenda} {t : Turn P} {cause : Inconsistency} {m : Message}
    (notified : e.notify = .ok e₁) (popped : e₁.agenda.pop = (some t.propagator, agenda))
    (start : t.start = { e₁ with agenda }) (taken : t.Taken (.error cause)) :
    Turns e [t] (.error cause) (t.stop.say m).abandon

/-- The loop consists of turns. -/
theorem turns_of_loop {rounds : Nat} (ran : e.loop rounds = .ok (status, e')) :
    ∃ turns, e.Turns turns status e' := by
  induction rounds generalizing e with
  | zero => cases ran
  | succ rounds ih =>
    obtain ⟨e₁, notified, ran⟩ := bind_eq_ok_iff.1 ran
    cases popped : e₁.agenda.pop with
    | mk taken agenda =>
      rw [popped] at ran
      cases taken with
      | none =>
        cases ran
        exact ⟨[], .rest notified popped⟩
      | some p =>
        obtain ⟨⟨status', e₂⟩, visited, ran⟩ := bind_eq_ok_iff.1 ran
        rcases visit_spec visited with ⟨inactive, rfl, rfl⟩ | ⟨active, e₃, called, done, failed⟩
        · obtain ⟨turns, left⟩ := ih ran
          exact ⟨⟨p, _, _⟩ :: turns, .next notified popped rfl (.passed inactive) left⟩
        · cases status' with
          | ok =>
            obtain rfl := done rfl
            obtain ⟨turns, left⟩ := ih ran
            exact ⟨⟨p, _, _⟩ :: turns, .next notified popped rfl (.called active called) left⟩
          | error cause =>
            obtain ⟨m, rfl⟩ := failed ⟨cause, rfl⟩
            cases ran
            exact ⟨[⟨p, _, e₃⟩], .failed notified popped rfl (.called active called)⟩

/-! ## What turns keep -/

section

omit [Propagator P]

/-- What every operation keeps: the store is sane, the agenda is valid, and every propagator has a
cell for its activity. -/
structure InOrder (e : Engine P) : Prop where
  store : e.store.Sane
  agenda : e.agenda.Valid
  size : e.activity.size = e.propagators.size

/-- What a propagation keeps: the engine is in order, no domain has got a further value, everybody
is registered for what he was registered for, and the cells of earlier checkpoints are the same. -/
structure Continues (e e' : Engine P) : Prop where
  order : e'.InOrder
  narrows : e.domains.Narrows e'.domains
  watches : e'.watches = e.watches
  activity : e'.activity = e.activity
  depth : e'.depth = e.depth
  cells : ∀ k, k < e.depth → e'.store.cells.past k = e.store.cells.past k

theorem Continues.trans {e'' : Engine P} (h : e.Continues e') (h' : e'.Continues e'') :
    e.Continues e'' := by
  refine ⟨h'.order, h.narrows.trans h'.narrows, h'.watches.trans h.watches,
    h'.activity.trans h.activity, h'.depth.trans h.depth, fun k below => ?_⟩
  rw [h'.cells k (by rw [h.depth]; exact below), h.cells k below]

/-- Which events are pending and what was noted does not matter. -/
theorem continues_of_rows {events : List (Watched × Event)} {notes : List Note} {agenda : Agenda}
    (order : e.InOrder) (valid : agenda.Valid) :
    e.Continues { e with
      store := { e.store with domains := { e.domains with events }, notes }, agenda } := by
  have follows : e.Follows { e with
      store := { e.store with domains := { e.domains with events }, notes }, agenda } :=
    follows_of_rows order.store
  have same := Domains.Narrows.refl e.domains
  exact ⟨⟨follows.sane, valid, order.size⟩, ⟨same.integer, same.interval⟩, rfl, rfl, rfl,
    fun _ _ => rfl⟩

end

/-- Handing out the events and taking somebody from the agenda. -/
theorem continues_of_pop {e₁ : Engine P} {agenda : Agenda} {taken : Option PropagatorId}
    (order : e.InOrder) (notified : e.notify = .ok e₁)
    (popped : e₁.agenda.pop = (taken, agenda)) :
    e.Continues { e₁ with agenda } ∧ e₁.domains.events = [] := by
  obtain ⟨queued, rfl, known⟩ := notify_spec notified
  have valid := (known order.agenda).1
  exact ⟨continues_of_rows order (Agenda.valid_pop valid popped), rfl⟩

/-- Whoever attends is the one that is taken, or waits from then on. -/
theorem taken_or_isWaiting {e₁ : Engine P} {agenda : Agenda} {taken : Option PropagatorId}
    (valid : e.agenda.Valid) (notified : e.notify = .ok e₁)
    (popped : e₁.agenda.pop = (taken, agenda)) (attends : e.Attends p) :
    taken = some p ∨ ∃ q, taken = some q ∧ agenda.isWaiting p = true := by
  obtain ⟨queued, rfl, known⟩ := notify_spec notified
  obtain ⟨valid', waiting⟩ := known valid
  have waits : queued.isWaiting p = true := (waiting p).2 attends
  cases taken with
  | none =>
    rcases Agenda.pop_spec valid' popped with ⟨-, -, rfl⟩ | ⟨_, _, _, _, impossible, -⟩
    · have idle := Agenda.not_isWaiting_of_pop_eq_none valid' popped p
      rw [waits] at idle
      cases idle
    · cases impossible
  | some q =>
    by_cases same : q = p
    · exact .inl (by rw [same])
    · exact .inr ⟨q, rfl, (Agenda.isWaiting_pop valid' popped p).2 ⟨waits, Ne.symm same⟩⟩

section

variable [Propagator.Stepwise P]

/-- What a turn does to the engine. -/
theorem reaches_of_taken {t : Turn P} (taken : t.Taken status) :
    (∃ own, t.start.store.Reaches own t.stop.store) ∧ t.stop.agenda = t.start.agenda ∧
      t.stop.watches = t.start.watches ∧ t.stop.activity = t.start.activity ∧
      t.stop.propagators.size = t.start.propagators.size := by
  cases taken with
  | passed inactive => exact ⟨⟨[], .refl⟩, rfl, rfl, rfl, rfl⟩
  | called active called =>
    obtain ⟨activity, q, q', s', -, -, ran, rfl⟩ := call_spec called
    exact ⟨Propagator.Stepwise.reaches ran, rfl, rfl, rfl, Table.size_set ..⟩

theorem continues_of_taken {t : Turn P} (taken : t.Taken status) (order : t.start.InOrder) :
    t.start.Continues t.stop := by
  obtain ⟨⟨own, reaches⟩, agenda, watches, activity, size⟩ := reaches_of_taken taken
  have evolves := reaches.evolves order.store.wellFormed_now
  refine ⟨⟨order.store.evolves evolves, by rw [agenda]; exact order.agenda, ?_⟩,
    evolves.domains.narrows, watches, activity, evolves.domains.depth, fun k below => ?_⟩
  · rw [activity, size]
    exact order.size
  · exact evolves.cells.past k (by rw [order.store.depth]; exact below)

/-- After the turns nothing is pending and nobody waits, whatever the outcome. -/
theorem Turns.continues {turns : List (Turn P)} (h : e.Turns turns status e')
    (order : e.InOrder) :
    e.Continues e' ∧ e'.domains.events = [] ∧ ∀ p, e'.agenda.isWaiting p = false := by
  induction h with
  | rest notified popped =>
    obtain ⟨queued, rfl, known⟩ := notify_spec notified
    have valid := (known order.agenda).1
    exact ⟨(continues_of_pop order notified popped).1, rfl,
      Agenda.not_isWaiting_of_pop_eq_none valid popped⟩
  | next notified popped start taken _ ih =>
    have first := (continues_of_pop order notified popped).1
    rw [← start] at first
    have turn := continues_of_taken taken first.order
    obtain ⟨after, quiet⟩ := ih turn.order
    exact ⟨first.trans (turn.trans after), quiet⟩
  | failed notified popped start taken =>
    have first := (continues_of_pop order notified popped).1
    rw [← start] at first
    have turn := continues_of_taken taken first.order
    refine ⟨first.trans (turn.trans ?_), rfl, Agenda.isWaiting_clear _⟩
    exact continues_of_rows turn.order (Agenda.valid_clear _)

/-- In a propagation that succeeds everybody who attends at the start gets a turn. -/
theorem Turns.exists_turn {turns : List (Turn P)} (h : e.Turns turns (.ok ()) e')
    (order : e.InOrder) (attends : e.Attends p) : ∃ t ∈ turns, t.propagator = p := by
  generalize succeeds : (.ok () : Status) = status at h
  induction h with
  | rest notified popped =>
    rcases taken_or_isWaiting order.agenda notified popped attends with taken | ⟨q, taken, -⟩
    · cases taken
    · cases taken
  | @next e e₁ e' agenda t rest status notified popped start taken _ ih =>
    rcases taken_or_isWaiting order.agenda notified popped attends with same | ⟨q, -, waits⟩
    · exact ⟨t, List.mem_cons_self, Option.some.inj same⟩
    have first := (continues_of_pop order notified popped).1
    rw [← start] at first
    have still : t.stop.agenda.isWaiting p = true := by
      rw [(reaches_of_taken taken).2.1, start]
      exact waits
    obtain ⟨t', mem, same⟩ := ih (continues_of_taken taken first.order).order (.inl still) succeeds
    exact ⟨t', List.mem_cons_of_mem _ mem, same⟩
  | failed => cases succeeds

/-- In a propagation that succeeds a turn starts without pending events, succeeds, and is followed
by the turns that are given from its end on. -/
theorem Turns.after {before after : List (Turn P)} {t : Turn P}
    (h : e.Turns (before ++ t :: after) (.ok ()) e') (order : e.InOrder) :
    e.Continues t.start ∧ t.start.domains.events = [] ∧ t.Taken (.ok ()) ∧
      t.stop.Turns after (.ok ()) e' := by
  induction before generalizing e with
  | nil =>
    cases h with
    | next notified popped start taken left =>
      obtain ⟨first, empty⟩ := continues_of_pop order notified popped
      rw [← start] at first
      exact ⟨first, by rw [start]; exact empty, taken, left⟩
  | cons u before ih =>
    rw [List.cons_append] at h
    generalize whole : before ++ t :: after = rest at h
    cases h with
    | next notified popped start taken left =>
      subst whole
      have first := (continues_of_pop order notified popped).1
      rw [← start] at first
      have turn := continues_of_taken taken first.order
      obtain ⟨continues, rest⟩ := ih left turn.order
      exact ⟨first.trans (turn.trans continues), rest⟩

end

/-! ## Operations -/

/-- What the operations of a solver do to its engine, apart from returning to a checkpoint. -/
inductive Moves : Engine P → Engine P → Prop
  | newInteger {e : Engine P} {row : IntegerDomain} (wellFormed : row.WellFormed) :
    Moves e (e.newInteger row).2
  | newInterval {e e' : Engine P} {bounds : Bounds} {presence : Presence} {i : IntervalId}
    (within : bounds.WithinHorizon) (made : e.newInterval bounds presence = .ok (i, e')) :
    Moves e e'
  | decide {e e' : Engine P} {d : Decision} {status : Status}
    (changed : e.change d.write = .ok (status, e')) : Moves e e'
  | propagate {e e' : Engine P} {rounds : Nat} {status : Status}
    (ran : e.loop rounds = .ok (status, e')) : Moves e e'
  | install {e e' : Engine P} {b : Blueprint P} {p : PropagatorId}
    (installed : e.install b = .ok (p, e')) : Moves e e'
  | checkpoint {e : Engine P} : Moves e e.checkpoint
  | dropEvents {e : Engine P} : Moves e e.dropEvents
  | say {e : Engine P} (m : Message) : Moves e (e.say m)
  | takeNotes {e : Engine P} : Moves e e.takeNotes.2

/-- The engines that operations lead to. -/
inductive Accessible : Engine P → Prop
  | empty : Accessible .empty
  | moves {e e' : Engine P} (before : Accessible e) (move : e.Moves e') : Accessible e'
  | undoTo {e e' : Engine P} {k : Nat} (before : Accessible e) (undone : e.undoTo k = .ok e') :
    Accessible e'

theorem Accessible.trans (h : e.Accessible) (moves : Relation.ReflTransGen Moves e e') :
    e'.Accessible := by
  induction moves with
  | refl => exact h
  | tail _ move ih => exact .moves ih move

variable [Propagator.Stepwise P]

/-- Operations leave the engine in order, and none but a return adds a value to a domain. -/
theorem Moves.narrows (h : e.Moves e') (order : e.InOrder) :
    e'.InOrder ∧ e.domains.Narrows e'.domains := by
  have kept {f : Engine P} (continues : e.Continues f) : f.InOrder ∧ e.domains.Narrows f.domains :=
    ⟨continues.order, continues.narrows⟩
  cases h with
  | newInteger wellFormed =>
    exact ⟨⟨order.store.addInteger wellFormed, order.agenda, order.size⟩,
      Domains.narrows_addInteger _ _⟩
  | newInterval within made =>
    obtain ⟨row, consistent, -, rfl⟩ := newInterval_spec made
    have wellFormed := Interval.wellFormed_of_ofBounds within consistent
    exact ⟨⟨order.store.addInterval wellFormed, order.agenda, order.size⟩,
      Domains.narrows_addInterval _ _⟩
  | @decide _ d status changed =>
    obtain ⟨left, wrote, changed⟩ := bind_eq_ok_iff.1 changed
    cases left with
    | none =>
      cases changed
      exact ⟨order, .refl _⟩
    | some domains =>
      cases changed
      have reaches : e.store.Reaches [] (e.withDomains domains).store := .single (.decide d wrote)
      have evolves := reaches.evolves order.store.wellFormed_now
      exact ⟨⟨order.store.evolves evolves, order.agenda, order.size⟩, evolves.domains.narrows⟩
  | propagate ran =>
    obtain ⟨turns, given⟩ := turns_of_loop ran
    exact kept (given.continues order).1
  | install made =>
    have installed := installed_of_install made
    refine ⟨⟨installed.sane_store order.store, installed.valid order.agenda, ?_⟩, ?_⟩
    · rw [installed.activity, installed.propagators, Table.size_push, Table.size_push, order.size]
    · rw [installed.domains]
      exact .refl _
  | checkpoint =>
    have same := Domains.Narrows.refl e.domains
    exact ⟨⟨order.store.checkpoint, order.agenda, order.size⟩, ⟨same.integer, same.interval⟩⟩
  | dropEvents => exact kept (continues_of_rows order order.agenda)
  | say m => exact kept (continues_of_rows order order.agenda)
  | takeNotes => exact kept (continues_of_rows order order.agenda)

/-- Whoever is registered for an event stays so. -/
theorem Moves.mem_affected (h : e.Moves e') (order : e.InOrder) {v : Watched} {event : Event}
    (mem : p ∈ e.watches.affected event v) : p ∈ e'.watches.affected event v := by
  cases h with
  | newInterval within made =>
    obtain ⟨row, -, -, rfl⟩ := newInterval_spec made
    exact mem
  | decide changed =>
    obtain ⟨left, -, changed⟩ := bind_eq_ok_iff.1 changed
    cases left <;> cases changed <;> exact mem
  | propagate ran =>
    obtain ⟨turns, given⟩ := turns_of_loop ran
    rw [(given.continues order).1.watches]
    exact mem
  | install made =>
    rw [(installed_of_install made).watches, WatchLists.mem_affected_foldl_register]
    exact .inl mem
  | _ => exact mem

theorem Accessible.order (h : e.Accessible) : e.InOrder := by
  induction h with
  | empty => exact ⟨Store.sane_empty, Agenda.valid_empty, rfl⟩
  | moves _ move ih => exact (move.narrows ih).1
  | undoTo _ undone ih =>
    obtain ⟨domains, cells, first, second, rfl⟩ := undoTo_spec undone
    exact ⟨ih.store.undoTo first second, Agenda.valid_clear _, ih.size⟩

theorem Accessible.mem_affected (h : e.Accessible) (moves : Relation.ReflTransGen Moves e e')
    {v : Watched} {event : Event} (mem : p ∈ e.watches.affected event v) :
    p ∈ e'.watches.affected event v := by
  induction moves with
  | refl => exact mem
  | tail before move ih => exact move.mem_affected (h.trans before).order ih

/-- No wake-up is lost. After a propagation, whatever its outcome and the number of rounds that it
is given, no event is pending and nobody waits. If it succeeds, every event that is pending at the
start is followed by a turn of everybody who is registered for it, and so is every event that is
recorded in a turn, also in a turn of his own; in this turn he is called, unless he is inactive. -/
theorem no_event_is_lost {rounds : Nat} (accessible : e.Accessible)
    (ran : e.loop rounds = .ok (status, e')) :
    (e'.domains.events = [] ∧ e'.agenda.toList = [] ∧ ∀ p, e'.agenda.isWaiting p = false) ∧
      ∃ turns, e.Turns turns status e' ∧ (status = .ok () →
        ∀ v event p, p ∈ e.watches.affected event v →
          ((v, event) ∈ e.domains.events → ∃ t ∈ turns, t.propagator = p ∧ t.Taken (.ok ())) ∧
          ∀ before t after, turns = before ++ t :: after → t.Records v event →
            ∃ t' ∈ after, t'.propagator = p ∧ t'.Taken (.ok ())) := by
  have order := accessible.order
  obtain ⟨turns, given⟩ := turns_of_loop ran
  obtain ⟨continues, events, idle⟩ := given.continues order
  refine ⟨⟨events, ?_, idle⟩, turns, given, ?_⟩
  · refine List.eq_nil_iff_forall_not_mem.2 fun p mem => ?_
    have waits := (continues.order.agenda.isWaiting_iff p).2 mem
    rw [idle] at waits
    cases waits
  rintro rfl v event p registered
  refine ⟨fun pending => ?_, ?_⟩
  · obtain ⟨t, mem, same⟩ := given.exists_turn order (.inr ⟨v, event, pending, registered⟩)
    obtain ⟨before, after, rfl⟩ := List.append_of_mem mem
    exact ⟨t, mem, same, (given.after order).2.2.1⟩
  · rintro before t after rfl records
    obtain ⟨start, -, taken, left⟩ := given.after order
    have stop := continues_of_taken taken start.order
    have watches : t.stop.watches = e.watches := stop.watches.trans start.watches
    obtain ⟨t', mem, same⟩ := left.exists_turn stop.order
      (.inr ⟨v, event, Turn.mem_events_of_records start.order.store records,
        by rw [watches]; exact registered⟩)
    obtain ⟨before', after', rfl⟩ := List.append_of_mem mem
    exact ⟨t', mem, same, (left.after stop.order).2.2.1⟩

end Engine

/-! ## A propagator that wakes itself -/

/-- It raises the first variable, and waits for changes of that variable. -/
def selfWaker : Blueprint Rule :=
  ⟨[.variable (.plain ⟨0⟩) .bounds], [], fun _ _ => .script ⟨.high, Script.raising, 0⟩, fun _ => []⟩

/-- The engine that a step leaves. -/
def Engine.left {α : Type} (x : Except Fault (α × Engine Rule)) : Engine Rule :=
  match x with
  | .ok (_, e) => e
  | .error _ => .empty

theorem Engine.eq_ok_left {α : Type} {x : Except Fault (α × Engine Rule)} {a : α}
    (h : x.toOption.map (·.1) = some a) : x = .ok (a, .left x) := by
  cases x with
  | error fault => cases h
  | ok result =>
    cases h
    rfl

namespace SelfWoken

/-- One variable with values up to nine. -/
def start : Engine Rule := ((.empty : Engine Rule).newInteger ⟨0, 9⟩).2

/-- The propagator is added, but has not been called yet. -/
def ready : Engine Rule := .left (start.install selfWaker)

theorem accessible : ready.Accessible := by
  have made : start.install selfWaker = .ok (⟨0⟩, ready) := rfl
  have row : (⟨0, 9⟩ : IntegerDomain).WellFormed := ⟨by decide, by decide, by decide⟩
  exact .moves (.moves .empty (.newInteger row)) (.install made)

end SelfWoken

open SelfWoken in
/-- The turn in which the propagator raises its variable is followed by another one. -/
theorem Engine.no_event_is_lost_selfWoken : ∃ e', ready.loop 3 = .ok (.ok (), e') ∧
    e'.domains.events = [] ∧ ∃ turns, ready.Turns turns (.ok ()) e' ∧
      ∀ before t after, turns = before ++ t :: after → t.Records (.integer ⟨0⟩) .lowerBound →
        ∃ t' ∈ after, t'.propagator = ⟨0⟩ ∧ t'.Taken (.ok ()) := by
  have succeeds : (ready.loop 3).toOption.map (·.1) = some (.ok ()) := by cbv
  have ran := eq_ok_left succeeds
  obtain ⟨⟨events, -, -⟩, turns, given, known⟩ := no_event_is_lost accessible ran
  have registered : (⟨0⟩ : PropagatorId) ∈ ready.watches.affected .lowerBound (.integer ⟨0⟩) := by
    decide
  exact ⟨_, ran, events, turns, given, (known rfl _ _ _ registered).2⟩

end Scheduling
