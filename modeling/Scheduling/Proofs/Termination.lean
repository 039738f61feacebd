import Scheduling.Proofs.FreeRun
import Scheduling.Proofs.Room
import Scheduling.Proofs.Turns

/-!
# The fixpoint loop ends

Propagators wake each other and themselves, so that nobody knows in advance how often each of them
runs. But whoever is woken again is woken by a change of a domain, and domains leave room for a
limited number of changes. Between two changes the loop takes one propagator after the other from
the agenda.

Results:
* `Engine.Closed`: the engines in which everybody and everything that is mentioned exists.
* `Engine.Accessible.closed`: operations lead to no others.
* `Engine.Iteration`, `Engine.Iterates`: what the loop does from one look at the agenda to the next.
* `Engine.Iteration.load_lt`: every iteration makes the load of the engine smaller.
* `Engine.propagate_ends`: the loop ends, and each iteration that changes no domain takes one
  propagator from the agenda, unless it fails.
* `Accessible.engine`, `Engine.Visited.closed`: the engines that solvers run.
-/

namespace Scheduling

namespace Engine

section

variable {P : Type} {e e' : Engine P}

/-- Whoever waits or is registered exists, has a level on the agenda, and has a cell that says
whether he is active. -/
structure Closed (e : Engine P) : Prop where
  agenda : e.agenda.Serves e.propagators.size
  watches : ∀ v event p, p ∈ e.watches.affected event v → p.index < e.propagators.size
  active : ∀ p : PropagatorId, p.index < e.propagators.size →
    ∃ cell, e.activity.get? p.index = some cell ∧ cell.index < e.store.cells.values.size

theorem Closed.exists_isActive (h : e.Closed) {p : PropagatorId}
    (known : p.index < e.propagators.size) : ∃ active, e.isActive p = .ok active := by
  obtain ⟨cell, here, inside⟩ := h.active p known
  obtain ⟨value, row⟩ := Table.exists_get? inside
  exact ⟨value != 0, bind_eq_ok_iff.2 ⟨cell, Table.read_eq_ok_iff.2 here,
    bind_eq_ok_iff.2 ⟨value, Cells.read_eq_ok_iff.2 row, rfl⟩⟩⟩

/-- What a step of the loop does: room is used up or nothing happens, and all else that is mentioned
stays in place. -/
structure Proceeds (e e' : Engine P) : Prop where
  closed : e'.Closed
  size : e'.propagators.size = e.propagators.size
  spends : e.domains.Spends e'.domains

theorem Closed.abandon (h : e.Closed) (m : Message) : (e.say m).abandon.Closed :=
  ⟨h.agenda.clear, h.watches, h.active⟩

/-- How much the engine has still to do: it grows with the room of the domains and, as long as these
stay as they are, with the number of those who wait. -/
def load (e : Engine P) : Nat :=
  e.domains.room * (e.propagators.size + 1) + e.agenda.toList.length

end

variable {P : Type} [Propagator P] {e e' f queued next : Engine P} {p : PropagatorId}
  {status : Status} {n : Nat}

/-! ## Handing out events -/

theorem exists_foldlM_schedule {l : List PropagatorId} (h : e.agenda.Serves e.propagators.size)
    (known : ∀ p ∈ l, p.index < e.propagators.size) :
    ∃ agenda, l.foldlM schedule e = .ok { e with agenda } ∧ agenda.Serves e.propagators.size := by
  induction l generalizing e with
  | nil => exact ⟨e.agenda, rfl, h⟩
  | cons p l ih =>
    have inside := known p List.mem_cons_self
    obtain ⟨propagator, row⟩ := Table.exists_get? inside
    obtain ⟨agenda, queued⟩ := h.exists_enqueue p (Propagator.priority propagator)
    have scheduled : e.schedule p = .ok { e with agenda } :=
      bind_eq_ok_iff.2 ⟨propagator, Table.read_eq_ok_iff.2 row,
        bind_eq_ok_iff.2 ⟨agenda, queued, rfl⟩⟩
    obtain ⟨agenda', rest, serves⟩ := ih (e := { e with agenda }) (h.enqueue inside queued)
      fun p mem => known p (List.mem_cons_of_mem _ mem)
    rw [List.foldlM_cons, scheduled]
    exact ⟨agenda', rest, serves⟩

/-- The events can be handed out. If there is none, the agenda stays as it is. -/
theorem Closed.exists_notify (h : e.Closed) :
    ∃ agenda, e.notify = .ok { e.dropEvents with agenda } ∧
      agenda.Serves e.propagators.size ∧ (e.domains.events = [] → agenda = e.agenda) := by
  obtain ⟨agenda, handed, serves⟩ := exists_foldlM_schedule (e := e.dropEvents)
    (l := e.domains.events.flatMap fun told => e.watches.affected told.2 told.1) h.agenda
    fun p mem => by
      obtain ⟨told, -, registered⟩ := List.mem_flatMap.1 mem
      exact h.watches told.1 told.2 p registered
  refine ⟨agenda, handed, serves, fun quiet => ?_⟩
  rw [quiet] at handed
  cases handed
  rfl

/-- After events have been handed out somebody can be taken from the agenda. -/
theorem Closed.pop (h : e.Closed) (bounded : e.domains.Bounded) (notified : e.notify = .ok queued)
    {taken : Option PropagatorId} {agenda : Agenda} (popped : queued.agenda.pop = (taken, agenda)) :
    ({ queued with agenda } : Engine P).Closed ∧ queued.domains.Bounded ∧
      queued.domains.events = [] ∧ queued.agenda.Serves queued.propagators.size := by
  obtain ⟨agenda', handed, serves, -⟩ := h.exists_notify
  obtain rfl := Except.ok.inj (notified.symm.trans handed)
  exact ⟨⟨serves.pop popped, h.watches, h.active⟩, ⟨bounded.integer, bounded.interval⟩, rfl, serves⟩

/-! ## Visits -/

section

variable [Propagator.Stepwise P]

theorem Closed.call (h : e.Closed) (bounded : e.domains.Bounded)
    (called : e.call p = .ok (status, e')) : e.Proceeds e' ∧ e'.agenda = e.agenda := by
  obtain ⟨activity, q, q', s', -, -, ran, rfl⟩ := call_spec called
  obtain ⟨own, reaches⟩ := Propagator.Stepwise.reaches ran
  obtain ⟨spends, cells⟩ := reaches.spends bounded
  have size : (e.propagators.set p.index q').size = e.propagators.size := Table.size_set ..
  refine ⟨⟨⟨?_, ?_, ?_⟩, size, spends⟩, rfl⟩
  · rw [size]
    exact h.agenda
  · rw [size]
    exact h.watches
  · rw [size, cells]
    exact h.active

/-- A visit that does not fail leaves the agenda alone. -/
theorem Closed.visit (h : e.Closed) (bounded : e.domains.Bounded)
    (visited : e.visit p = .ok (.ok (), e')) : e.Proceeds e' ∧ e'.agenda = e.agenda := by
  rcases visit_spec visited with ⟨-, -, rfl⟩ | ⟨-, e₁, called, done, -⟩
  · exact ⟨⟨h, rfl, .refl bounded⟩, rfl⟩
  · rw [done rfl]
    exact h.call bounded called

/-- A visit that fails leaves an engine in which nobody waits. -/
theorem Closed.failed_visit (h : e.Closed) (bounded : e.domains.Bounded) {cause : Inconsistency}
    (visited : e.visit p = .ok (.error cause, e')) : e'.Closed ∧ e'.agenda.toList = [] := by
  rcases visit_spec visited with ⟨-, impossible, -⟩ | ⟨-, e₁, called, -, failed⟩
  · cases impossible
  · obtain ⟨m, rfl⟩ := failed ⟨cause, rfl⟩
    exact ⟨(h.call bounded called).1.closed.abandon m, rfl⟩

omit [Propagator.Stepwise P] in
/-- If the call of an active propagator returns, so does the visit. -/
theorem Closed.exists_visit (h : e.Closed) (known : p.index < e.propagators.size)
    (returns : e.isActive p = .ok true → ∃ status e', e.call p = .ok (status, e')) :
    ∃ status e', e.visit p = .ok (status, e') := by
  obtain ⟨active, told⟩ := h.exists_isActive known
  cases active with
  | false => exact ⟨.ok (), e, bind_eq_ok_iff.2 ⟨false, told, rfl⟩⟩
  | true =>
    obtain ⟨status, e', called⟩ := returns told
    cases status with
    | ok =>
      exact ⟨.ok (), e', bind_eq_ok_iff.2 ⟨true, told, bind_eq_ok_iff.2 ⟨_, called, rfl⟩⟩⟩
    | error cause =>
      obtain ⟨activity, q, q', s', -, row, -, rfl⟩ := call_spec called
      have inside := Table.lt_size_of_get? row
      have row' : (e.propagators.set p.index q').get? p.index = some q' := by
        rw [Table.get?_set, if_pos rfl, if_pos inside]
      exact ⟨.error cause, _, bind_eq_ok_iff.2 ⟨true, told, bind_eq_ok_iff.2 ⟨_, called,
        bind_eq_ok_iff.2 ⟨q', Table.read_eq_ok_iff.2 row', rfl⟩⟩⟩⟩

end

/-! ## Iterations -/

/-- One iteration of the fixpoint loop: the pending events are handed out, which leaves `queued`,
and the first propagator that waits is taken and visited. -/
structure Iteration (e queued : Engine P) (p : PropagatorId) (status : Status) (next : Engine P) :
    Prop where
  notified : e.notify = .ok queued
  visited : ∃ agenda, queued.agenda.pop = (some p, agenda) ∧
    ({ queued with agenda } : Engine P).visit p = .ok (status, next)

/-- The second engine is what a number of iterations makes of the first one. -/
inductive Iterates : Nat → Engine P → Engine P → Prop
  | start {e : Engine P} : Iterates 0 e e
  | next {e f queued next : Engine P} {p : PropagatorId} {n : Nat} : Iterates n e f →
    f.Iteration queued p (.ok ()) next → Iterates (n + 1) e next

/-- The loop goes on after an iteration that succeeds. -/
theorem Iteration.loop_of_ok (h : e.Iteration queued p (.ok ()) next) (n : Nat) :
    e.loop (n + 1) = next.loop n := by
  obtain ⟨agenda, popped, visited⟩ := h.visited
  simp only [loop, h.notified, bind, Except.bind, popped, visited]

/-- The loop ends with an iteration that fails. -/
theorem Iteration.loop_of_error {cause : Inconsistency}
    (h : e.Iteration queued p (.error cause) next) (n : Nat) :
    e.loop (n + 1) = .ok (.error cause, next) := by
  obtain ⟨agenda, popped, visited⟩ := h.visited
  simp only [loop, h.notified, bind, Except.bind, popped, visited]
  rfl

theorem Iterates.loop (h : Iterates n e f) (m : Nat) : e.loop (n + m) = f.loop m := by
  induction h generalizing m with
  | start => rw [Nat.zero_add]
  | next _ iteration ih => rw [Nat.add_assoc, ih, Nat.add_comm 1, iteration.loop_of_ok]

/-- More rounds than the loop needs make no difference. -/
theorem loop_mono {r : Status × Engine P} (ran : e.loop n = .ok r) {m : Nat} (le : n ≤ m) :
    e.loop m = .ok r := by
  induction n generalizing e m with
  | zero => cases ran
  | succ n ih =>
    obtain ⟨m, rfl⟩ := Nat.exists_eq_add_of_lt le
    obtain ⟨queued, notified, ran⟩ := bind_eq_ok_iff.1 ran
    refine bind_eq_ok_iff.2 ⟨queued, notified, ?_⟩
    cases popped : queued.agenda.pop with
    | mk taken agenda =>
      rw [popped] at ran
      cases taken with
      | none => exact ran
      | some p =>
        obtain ⟨⟨status, next⟩, visited, ran⟩ := bind_eq_ok_iff.1 ran
        refine bind_eq_ok_iff.2 ⟨⟨status, next⟩, visited, ?_⟩
        cases status with
        | ok => exact ih ran (Nat.le_add_right _ _)
        | error cause => exact ran

variable [Propagator.Stepwise P]

/-- What an iteration that succeeds does. The propagator that is taken is the only one that does not
wait any more, and nothing is pending if no domain has changed. -/
theorem Iteration.spec (h : e.Iteration queued p (.ok ()) next) (closed : e.Closed)
    (bounded : e.domains.Bounded) :
    queued.Proceeds next ∧ next.agenda.toList.length + 1 = queued.agenda.toList.length ∧
      (next.domains = queued.domains → next.domains.events = []) := by
  obtain ⟨agenda, popped, visited⟩ := h.visited
  obtain ⟨ready, bounded', quiet, serves⟩ := closed.pop bounded h.notified popped
  obtain ⟨⟨closed', size, spends⟩, same⟩ := ready.visit bounded' visited
  refine ⟨⟨closed', size, spends⟩, ?_, fun unchanged => by rw [unchanged, quiet]⟩
  rw [same]
  exact Agenda.length_toList_of_pop serves.valid popped

omit [Propagator.Stepwise P] in
/-- Whoever is not active is passed over. -/
theorem Iteration.unchanged_of_inactive (h : e.Iteration queued p status next)
    (inactive : queued.isActive p = .ok false) :
    status = .ok () ∧ next.domains.rows = queued.domains.rows := by
  obtain ⟨agenda, -, visited⟩ := h.visited
  rcases visit_spec visited with ⟨-, rfl, rfl⟩ | ⟨active, -⟩
  · exact ⟨rfl, rfl⟩
  · have same : queued.isActive p = .ok true := active
    rw [inactive] at same
    cases same

/-- Nobody waits after an iteration that fails. -/
theorem Iteration.nobody_waits {cause : Inconsistency}
    (h : e.Iteration queued p (.error cause) next) (closed : e.Closed)
    (bounded : e.domains.Bounded) : next.agenda.toList = [] := by
  obtain ⟨agenda, popped, visited⟩ := h.visited
  obtain ⟨ready, bounded', -⟩ := closed.pop bounded h.notified popped
  exact (ready.failed_visit bounded' visited).2

/-- Every iteration makes the load smaller, also after the events that it has caused are handed out:
either a domain has less room, or nobody new waits. -/
theorem Iteration.load_lt (h : e.Iteration queued p (.ok ()) next) (closed : e.Closed)
    (bounded : e.domains.Bounded) {queued' : Engine P} (notified : next.notify = .ok queued') :
    queued'.load < queued.load := by
  obtain ⟨⟨closed', size, spends⟩, fewer, quiet⟩ := h.spec closed bounded
  obtain ⟨agenda, handed, serves, same⟩ := closed'.exists_notify
  obtain rfl := Except.ok.inj (notified.symm.trans handed)
  show next.domains.room * (next.propagators.size + 1) + agenda.toList.length <
    queued.domains.room * (queued.propagators.size + 1) + queued.agenda.toList.length
  rw [← size]
  rcases spends.room with unchanged | less
  · rw [same (quiet unchanged), unchanged]
    omega
  · have waiting : agenda.toList.length ≤ next.propagators.size := serves.length_le
    have used : (next.domains.room + 1) * (next.propagators.size + 1) ≤
        queued.domains.room * (next.propagators.size + 1) := Nat.mul_le_mul_right _ less
    rw [Nat.add_mul] at used
    omega

omit [Propagator.Stepwise P] in
/-- The loop is given more rounds than the load of the engine. -/
theorem Closed.load_lt_rounds (closed : e.Closed) (bounded : e.domains.Bounded)
    (notified : e.notify = .ok queued) : queued.load < e.rounds := by
  obtain ⟨agenda, handed, serves, -⟩ := closed.exists_notify
  obtain rfl := Except.ok.inj (notified.symm.trans handed)
  show e.domains.room * (e.propagators.size + 1) + agenda.toList.length < e.rounds
  have waiting : agenda.toList.length ≤ e.propagators.size := serves.length_le
  have room : e.domains.room * (e.propagators.size + 1) ≤ e.changes * (e.propagators.size + 1) :=
    Nat.mul_le_mul_right _ (Domains.room_le bounded)
  rw [rounds, Nat.add_mul]
  omega

/-- What a number of iterations does. -/
theorem Iterates.spec (h : Iterates n e f) (closed : e.Closed) (bounded : e.domains.Bounded)
    (notified : e.notify = .ok queued) : f.Closed ∧ f.domains.Bounded ∧
      ∀ queued', f.notify = .ok queued' → queued'.load + n ≤ queued.load := by
  induction h with
  | start =>
    refine ⟨closed, bounded, fun queued' notified' => ?_⟩
    obtain rfl := Except.ok.inj (notified.symm.trans notified')
    exact Nat.le_refl _
  | next _ iteration ih =>
    obtain ⟨closed', bounded', before⟩ := ih closed bounded notified
    obtain ⟨proceeds, -⟩ := iteration.spec closed' bounded'
    refine ⟨proceeds.closed, proceeds.spends.bounded, fun queued' notified' => ?_⟩
    have less := iteration.load_lt closed' bounded' notified'
    have := before _ iteration.notified
    omega

/-! ## Operations -/

/-- The loop leaves an engine in which everybody exists. -/
theorem Closed.of_loop (closed : e.Closed) (bounded : e.domains.Bounded)
    (ran : e.loop n = .ok (status, e')) : e'.Closed := by
  induction n generalizing e with
  | zero => cases ran
  | succ n ih =>
    obtain ⟨queued, notified, ran⟩ := bind_eq_ok_iff.1 ran
    cases popped : queued.agenda.pop with
    | mk taken agenda =>
      obtain ⟨ready, bounded', -⟩ := closed.pop bounded notified popped
      rw [popped] at ran
      cases taken with
      | none =>
        cases ran
        exact ready
      | some p =>
        obtain ⟨⟨status', next⟩, visited, ran⟩ := bind_eq_ok_iff.1 ran
        cases status' with
        | ok =>
          obtain ⟨proceeds, -⟩ := ready.visit bounded' visited
          exact ih proceeds.closed proceeds.spends.bounded ran
        | error cause =>
          cases ran
          exact (ready.failed_visit bounded' visited).1

omit [Propagator.Stepwise P] in
/-- A new propagator waits, and is registered under its own key. -/
theorem Closed.install (closed : e.Closed) (order : e.InOrder) {b : Blueprint P}
    (made : e.install b = .ok (p, e')) : e'.Closed := by
  have installed := installed_of_install made
  have cells : e'.store.cells.values.size = e.store.cells.values.size + (1 :: b.cells).length := by
    obtain ⟨-, -, values, -⟩ := Cells.foldl_grow_spec order.store.recordedCells (1 :: b.cells)
    rw [installed.cells, values, Table.size_foldl_push]
  have size : e'.propagators.size = e.propagators.size + 1 := by
    rw [installed.propagators, Table.size_push]
  have last : p.index = e.propagators.size := by rw [installed.key]
  refine ⟨?_, fun v event q mem => ?_, fun q known => ?_⟩
  · rw [size]
    exact installed.serves _ (closed.agenda.mono (Nat.le_succ _)) (by omega)
  · rw [installed.watches, WatchLists.mem_affected_foldl_register] at mem
    rcases mem with mem | ⟨-, rfl⟩
    · have := closed.watches v event q mem
      omega
    · omega
  · rw [installed.activity, Table.get?_push, cells, List.length_cons]
    split
    · exact ⟨_, rfl, by simp⟩
    · rename_i older
      have older : q.index < e.propagators.size := by
        rw [order.size] at older
        omega
      obtain ⟨cell, here, inside⟩ := closed.active q older
      exact ⟨cell, here, by omega⟩

theorem Moves.closed (h : e.Moves e') (closed : e.Closed) (order : e.InOrder) : e'.Closed := by
  cases h with
  | newInterval within made =>
    obtain ⟨row, -, -, rfl⟩ := newInterval_spec made
    exact ⟨closed.agenda, closed.watches, closed.active⟩
  | decide changed =>
    obtain ⟨left, -, changed⟩ := bind_eq_ok_iff.1 changed
    cases left <;> cases changed <;> exact ⟨closed.agenda, closed.watches, closed.active⟩
  | propagate ran => exact closed.of_loop order.store.wellFormed_now.bounded ran
  | install made => exact closed.install order made
  | _ => exact ⟨closed.agenda, closed.watches, closed.active⟩

/-- Operations lead to no engine that mentions what does not exist. -/
theorem Accessible.closed (h : e.Accessible) : e.Closed := by
  induction h with
  | empty =>
    refine ⟨.empty, fun v event p mem => ?_, fun p known => absurd known (Nat.not_lt_zero _)⟩
    have nobody : (WatchLists.empty.watchers v).affected event = [] := by cases v <;> rfl
    rw [Engine.empty, WatchLists.affected, nobody] at mem
    cases mem
  | moves before move ih => exact move.closed ih before.order
  | @undoTo e _ _ before undone ih =>
    obtain ⟨domains, cells, first, second, rfl⟩ := undoTo_spec undone
    have size : cells.values.size = e.store.cells.values.size := by
      obtain ⟨-, -, past, -⟩ := Cells.undo_spec second
      rw [← cells.size_past 0, past, Cells.size_past]
    refine ⟨ih.agenda.clear, ih.watches, fun p known => ?_⟩
    obtain ⟨cell, here, inside⟩ := ih.active p known
    exact ⟨cell, here, by rw [size]; exact inside⟩

/-! ## The end of the loop -/

/-- If the calls return, a loop with more rounds than the load ends. -/
theorem Closed.exists_loop (closed : e.Closed) (bounded : e.domains.Bounded)
    (notified : e.notify = .ok queued) (enough : queued.load < n)
    (returns : ∀ p f, e.CallsWithin n p f → ∃ status f', f.call p = .ok (status, f')) :
    ∃ status e', e.loop n = .ok (status, e') := by
  induction n generalizing e queued with
  | zero => exact absurd enough (Nat.not_lt_zero _)
  | succ n ih =>
    cases popped : queued.agenda.pop with
    | mk taken agenda =>
      cases taken with
      | none =>
        exact ⟨.ok (), _, bind_eq_ok_iff.2 ⟨queued, notified, by simp only [popped]; rfl⟩⟩
      | some p =>
        obtain ⟨ready, -, -, serves⟩ := closed.pop bounded notified popped
        obtain ⟨status, next, visited⟩ := ready.exists_visit (serves.lt_of_pop popped)
          fun active => returns p _ ⟨queued, p, agenda, notified, popped, .inl ⟨rfl, rfl, active⟩⟩
        have iteration : e.Iteration queued p status next := ⟨notified, agenda, popped, visited⟩
        cases status with
        | error cause => exact ⟨_, _, iteration.loop_of_error n⟩
        | ok =>
          obtain ⟨proceeds, -⟩ := iteration.spec closed bounded
          obtain ⟨agenda', notified', -⟩ := proceeds.closed.exists_notify
          have less := iteration.load_lt closed bounded notified'
          rw [iteration.loop_of_ok]
          exact ih proceeds.closed proceeds.spends.bounded notified' (by omega)
            fun q f within =>
              returns q f ⟨queued, p, agenda, notified, popped, .inr ⟨next, visited, within⟩⟩

/-- The loop ends. Whatever the propagators are, as long as they act through their context and their
calls return: with any number of rounds from `Engine.rounds` on the loop returns, and always the
same; before that it goes through fewer than `Engine.rounds` iterations. An iteration that succeeds
without changing a domain, as one does that passes over an inactive propagator, leaves one waiting
propagator less than there were after its events were handed out, and no event. An iteration that
fails is the last one, and leaves nobody waiting. -/
theorem propagate_ends (closed : e.Closed) (bounded : e.domains.Bounded)
    (returns : ∀ p f, e.Calls p f → ∃ status f', f.call p = .ok (status, f')) :
    (∃ status e', ∀ rounds, e.rounds ≤ rounds → e.loop rounds = .ok (status, e')) ∧
      ∀ n f queued p status next, Iterates n e f → f.Iteration queued p status next →
        n < e.rounds ∧
        (queued.isActive p = .ok false ∨ status = .ok () ∧ next.domains.rows = queued.domains.rows →
          next.agenda.toList.length + 1 = queued.agenda.toList.length ∧
            next.domains.events = []) ∧
        ∀ cause, status = .error cause →
          next.agenda.toList = [] ∧ e.propagate = .ok (.error cause, next) := by
  obtain ⟨agenda, notified, -⟩ := closed.exists_notify
  have enough := closed.load_lt_rounds bounded notified
  obtain ⟨result, e', ran⟩ := closed.exists_loop bounded notified enough returns
  refine ⟨⟨result, e', fun rounds le => loop_mono ran le⟩, ?_⟩
  intro n f queued p status next iterates iteration
  obtain ⟨closed', bounded', load⟩ := iterates.spec closed bounded notified
  have left := load queued iteration.notified
  have below : n < e.rounds := by omega
  refine ⟨below, fun still => ?_, ?_⟩
  · have still : status = .ok () ∧ next.domains.rows = queued.domains.rows :=
      still.elim iteration.unchanged_of_inactive id
    obtain ⟨rfl, rows⟩ := still
    obtain ⟨proceeds, fewer, quiet⟩ := iteration.spec closed' bounded'
    exact ⟨fewer, quiet (proceeds.spends.eq_of_rows_eq rows)⟩
  · rintro cause rfl
    refine ⟨iteration.nobody_waits closed' bounded', ?_⟩
    obtain ⟨m, rounds⟩ := Nat.exists_eq_add_of_lt below
    rw [propagate, rounds, Nat.add_assoc, iterates.loop, iteration.loop_of_error]

/-- The calls of a propagation return if those that it makes do. -/
theorem returns_of_callers {e : Engine Rule}
    (all : ((e.callers e.rounds).all fun c => (c.2.call c.1).isOk) = true) {p : PropagatorId}
    {f : Engine Rule} (calls : e.Calls p f) : ∃ status f', f.call p = .ok (status, f') := by
  have ok := List.all_eq_true.1 all _ (mem_callers calls)
  cases called : f.call p with
  | ok r => exact ⟨r.1, r.2, rfl⟩
  | error fault => simp [called, Except.isOk, Except.toBool] at ok

end Engine

/-! ## The engines of runs -/

theorem Solver.accessible_ended {s : Solver Rule} (h : s.engine.Accessible) (status : Status) :
    (s.ended status).engine.Accessible := by
  cases status with
  | ok => exact h
  | error cause =>
    rw [ended, markInfeasible]
    split
    · exact .moves h (.say _)
    · exact h

/-- Whatever an operation of a solver does, operations of its engine do. -/
theorem Operation.accessible_of_run {op : Operation} {s : Solver Rule} {c : State}
    (h : s.engine.Accessible) (valid : op.Valid s) (ran : op.run s = .ok c) :
    c.solver.engine.Accessible := by
  cases op with
  | newInteger lower upper =>
    obtain ⟨⟨x, s'⟩, made, last⟩ := bind_eq_ok_iff.1 ran
    cases last
    obtain ⟨le, -, rfl⟩ := Session.newInteger_spec made
    exact .moves h (.newInteger ⟨le, valid.1, valid.2⟩)
  | newInterval lower upper =>
    obtain ⟨⟨i, s'⟩, made, last⟩ := bind_eq_ok_iff.1 ran
    cases last
    obtain ⟨e, created, rfl⟩ := Session.onEngine_eq_ok_iff.1 made
    exact .moves h (.newInterval valid created)
  | decide d =>
    obtain ⟨⟨status, s'⟩, imposed, last⟩ := bind_eq_ok_iff.1 ran
    cases last
    rcases Session.impose_cases imposed with
      ⟨-, -, rfl⟩ | ⟨-, ⟨-, -, rfl⟩ | ⟨d', e, wrote, propagated, rfl⟩⟩
    · exact h
    · exact Solver.accessible_ended (s := s.withEngine s.engine.dropEvents) (.moves h .dropEvents) _
    · have changed : s.engine.change d.write = .ok (.ok (), s.engine.withDomains d') :=
        bind_eq_ok_iff.2 ⟨some d', wrote, rfl⟩
      have left : e.Accessible := .moves (.moves h (.decide changed)) (.propagate propagated)
      refine Solver.accessible_ended (s := s.withEngine (e.closed status)) ?_ _
      cases status with
      | ok => exact left
      | error cause => exact .moves left .dropEvents
  | propagate =>
    obtain ⟨⟨status, s'⟩, requested, last⟩ := bind_eq_ok_iff.1 ran
    cases last
    rcases Session.propagate_cases requested with ⟨-, -, rfl⟩ | ⟨-, e, propagated, rfl⟩
    · exact h
    · exact Solver.accessible_ended (s := s.withEngine e) (.moves h (.propagate propagated)) _
  | checkpoint =>
    cases ran
    exact .moves h .checkpoint
  | undoTo k =>
    obtain ⟨⟨_, s'⟩, undone, last⟩ := bind_eq_ok_iff.1 ran
    cases last
    obtain ⟨e, returned, rfl⟩ := Session.onEngine_eq_ok_iff.1 undone
    obtain ⟨e, undone, last⟩ := bind_eq_ok_iff.1 returned
    cases last
    exact .undoTo h undone
  | post x =>
    obtain ⟨⟨result, s'⟩, posted, last⟩ := bind_eq_ok_iff.1 ran
    cases last
    rcases Posting.add_cases posted with
      ⟨-, -, rfl⟩ | ⟨-, id, e, status, e', installed, propagated, rfl, -⟩
    · exact h
    · exact Solver.accessible_ended (s := s.withEngine e')
        (.moves (.moves h (.install installed)) (.propagate propagated)) _
  | say m =>
    cases ran
    exact .moves h (.say m)
  | takeNotes =>
    obtain ⟨⟨notes, s'⟩, taken, last⟩ := bind_eq_ok_iff.1 ran
    cases last
    obtain ⟨e, given, rfl⟩ := Session.onEngine_eq_ok_iff.1 taken
    cases given
    exact .moves h .takeNotes

theorem Accessible.engine {c : State} (h : Accessible c) : c.solver.engine.Accessible := by
  induction h with
  | refl => exact .empty
  | next _ valid ran ih => exact Operation.accessible_of_run ih valid ran

namespace Engine

theorem Accessible.enters {op : Operation} {s : Solver Rule} {e : Engine Rule}
    (h : s.engine.Accessible) (enters : op.Enters s e) : e.Accessible := by
  cases op with
  | propagate => exact enters.2 ▸ h
  | decide d => exact .moves h (.decide enters.2)
  | post x =>
    obtain ⟨-, id, installed⟩ := enters
    exact .moves h (.install installed)
  | _ => exact enters.elim

/-- Whenever a propagator is called, everybody who is mentioned exists. -/
theorem Closed.callsWithin {P : Type} [Propagator P] [Propagator.Stepwise P] {e f : Engine P}
    {n : Nat} {p : PropagatorId} (closed : e.Closed) (bounded : e.domains.Bounded)
    (calls : e.CallsWithin n p f) : f.Closed := by
  induction n generalizing e with
  | zero => exact calls.elim
  | succ n ih =>
    obtain ⟨queued, q, agenda, notified, popped, called | ⟨next, visited, later⟩⟩ := calls
    · obtain ⟨-, rfl, -⟩ := called
      exact (closed.pop bounded notified popped).1
    · obtain ⟨ready, bounded', -⟩ := closed.pop bounded notified popped
      obtain ⟨proceeds, -⟩ := ready.visit bounded' visited
      exact ih proceeds.closed proceeds.spends.bounded later

/-- In the engines of runs everybody who is mentioned exists. -/
theorem Visited.closed {f : Engine Rule} (h : f.Visited) : f.Closed := by
  cases h with
  | rest accessible => exact accessible.engine.closed
  | call accessible _ calls =>
    obtain ⟨e, enters, called⟩ := calls
    have entered := accessible.engine.enters enters
    exact entered.closed.callsWithin entered.order.store.wellFormed_now.bounded called

/-- A propagator can be added to an engine in which everybody who is mentioned exists. -/
theorem Closed.exists_install {P : Type} [Propagator P] {e : Engine P} (h : e.Closed)
    (b : Blueprint P) : ∃ p e', e.install b = .ok (p, e') := by
  let propagator := b.build ⟨e.propagators.size⟩ (e.store.cells.grow 1).next
  obtain ⟨agenda, queued⟩ := h.agenda.exists_enqueue ⟨e.propagators.size⟩
    (Propagator.priority propagator)
  have row : (e.propagators.push propagator).read e.propagators.size = .ok propagator :=
    Table.read_eq_ok_iff.2 (by simp [Table.get?_push])
  refine ⟨_, _, bind_eq_ok_iff.2 ⟨_, bind_eq_ok_iff.2 ⟨propagator, row,
    bind_eq_ok_iff.2 ⟨agenda, queued, rfl⟩⟩, rfl⟩⟩

end Engine

/-- The loop ends for the propagator that wakes itself. -/
theorem Engine.propagate_ends_selfWoken : SelfWoken.ready.Closed ∧
    SelfWoken.ready.domains.Bounded ∧ ∃ status e', ∀ rounds, SelfWoken.ready.rounds ≤ rounds →
      SelfWoken.ready.loop rounds = .ok (status, e') := by
  have closed := SelfWoken.accessible.closed
  have bounded := SelfWoken.accessible.order.store.wellFormed_now.bounded
  exact ⟨closed, bounded, (propagate_ends closed bounded fun p f => returns_of_callers (by cbv)).1⟩

/-! ## A failure while others wait -/

/-- It waits for changes of the first variable, and performs the listed actions. -/
def watcher (lists : List (List Action)) : Blueprint Rule :=
  ⟨[.variable (.plain ⟨0⟩) .bounds], [], fun _ _ => .script ⟨.high, lists, 0⟩, fun _ => []⟩

namespace Dropped

/-- The first propagator fails from its second run on. -/
def first : Engine Rule := .left (SelfWoken.start.install (watcher [[], [.fail]]))

/-- The second one never does anything. -/
def both : Engine Rule := .left (first.install (watcher [[]]))

/-- Both have been run. -/
def settled : Engine Rule := .left (both.loop 3)

/-- The variable that they wait for has changed. -/
def woken : Engine Rule := .left (settled.change (Decision.setBound (.plain ⟨0⟩) .lower 1).write)

/-- Both wait. -/
def queued : Engine Rule := woken.notify.toOption.getD .empty

/-- The first one has failed. -/
def failed : Engine Rule :=
  .left (({ queued with agenda := queued.agenda.pop.2 } : Engine Rule).visit ⟨0⟩)

theorem accessible : woken.Accessible := by
  have row : (⟨0, 9⟩ : IntegerDomain).WellFormed := ⟨by decide, by decide, by decide⟩
  have made : SelfWoken.start.install (watcher [[], [.fail]]) = .ok (⟨0⟩, first) := rfl
  have made' : first.install (watcher [[]]) = .ok (⟨1⟩, both) := rfl
  have ran : both.loop 3 = .ok (.ok (), settled) := rfl
  have changed : settled.change (Decision.setBound (.plain ⟨0⟩) .lower 1).write =
      .ok (.ok (), woken) := rfl
  exact .moves (.moves (.moves (.moves (.moves .empty (.newInteger row)) (.install made))
    (.install made')) (.propagate ran)) (.decide changed)

end Dropped

open Dropped in
/-- A propagator that fails without changing a domain leaves nobody waiting, also if another one was
waiting with it. -/
theorem Engine.failure_drops_others : woken.Accessible ∧ woken.domains.Bounded ∧
    (∀ p f, woken.Calls p f → ∃ status f', f.call p = .ok (status, f')) ∧
    ∃ cause, woken.Iteration queued ⟨0⟩ (.error cause) failed ∧
      queued.isActive ⟨0⟩ = .ok true ∧ failed.domains.rows = queued.domains.rows ∧
      failed.agenda.toList.length + 1 ≠ queued.agenda.toList.length :=
  ⟨accessible, accessible.order.store.wellFormed_now.bounded, fun _ _ =>
    returns_of_callers (by cbv), _, ⟨rfl, _, rfl, rfl⟩, rfl, rfl, by decide⟩

end Scheduling
