import Scheduling.Proofs.Engine

/-!
# Guarantees of propagators

What a propagator enforces is a property of domains that it has seen. That it holds whenever a
propagation has succeeded depends on the whole engine: the propagator must have been woken by every
change that matters, and what it has stored must still be right after the search has returned to an
earlier checkpoint. `Guarantee.Lawful` lists what has to be shown of the propagator alone.

Results:
* `Guarantee.Tracks`: what is kept about a propagator, for the current state and for those of all
  checkpoints that were left.
* `Guarantee.Tracks.transport`: a step that only narrows, or goes back, keeps it.
* `Guarantee.tracks_of_call`: a run of the propagator keeps it.
* `Guarantee.spec_of_loop`: after a successful propagation the domains are accepted.
-/

namespace Scheduling

/-- The cells of the propagator that only go down. -/
def Rule.sizes : Rule → List CellId
  | .machine m => [m.active.size]
  | .resource r => [r.active.size]
  | _ => []

theorem Rule.sizes_subset (q : Rule) : q.sizes ⊆ q.cells := by
  cases q <;> simp [sizes, cells, Machine.cells, Resource.cells]

/-- The first values of the cells come from an earlier state than the second ones. -/
def Rule.Older (q : Rule) (values values' : Table Int) : Prop :=
  ∀ cell ∈ q.sizes, (values'.get? cell.index).getD 0 ≤ (values.get? cell.index).getD 0

theorem Rule.Older.refl (q : Rule) (values : Table Int) : q.Older values values :=
  fun _ _ => Int.le_refl _

theorem Rule.Older.trans {q : Rule} {a b c : Table Int} (h : q.Older a b) (h' : q.Older b c) :
    q.Older a c :=
  fun cell mem => Int.le_trans (h' cell mem) (h cell mem)

/-- What is claimed of a propagator: the domains that it accepts, how its data, the domains and the
values of the cells fit together, in which domains its runs are considered, and what it waits for.
-/
structure Guarantee where
  Accepts : Domains → Prop
  Invariant : CellId → Rule → Domains → Table Int → Prop
  Allowed : Rule → Domains → Prop
  Watches : Watched → Event → Prop

/-- What has to be shown of the propagator alone. -/
structure Guarantee.Lawful (G : Guarantee) : Prop where
  /-- Others narrow the domains and leave the cells of the propagator alone. -/
  invariant_mono : ∀ {activity q d d' values values'}, G.Invariant activity q d values →
    d.WellFormed → d'.WellFormed → d.Narrows d' →
    (∀ cell ∈ activity :: q.cells, values'.get? cell.index = values.get? cell.index) →
    G.Invariant activity q d' values'
  /-- A run fits its data to the new state, and to the states of earlier checkpoints as well. -/
  run : ∀ {context q q' status s s'},
    (Propagator.run context q).run s = .ok ((q', status), s') → s.domains.WellFormed →
    (context.activity :: q.cells).Nodup →
    G.Invariant context.activity q s.domains s.cells.values → G.Allowed q s.domains →
    G.Invariant context.activity q' s'.domains s'.cells.values ∧
      q'.sizes = q.sizes ∧ q.Older s.cells.values s'.cells.values ∧
      (∀ d values, G.Invariant context.activity q d values → q.Older values s.cells.values →
        G.Invariant context.activity q' d values) ∧
      (status = .ok () → G.Accepts s.domains)
  /-- The propagator is switched off only when nothing is left to do. -/
  accepts_of_idle : ∀ {activity q d values}, G.Invariant activity q d values → d.WellFormed →
    values.get? activity.index = some 0 → G.Accepts d
  /-- No change matters of which the propagator is not told. -/
  accepts_or_watches : ∀ {activity q d d' values events}, G.Invariant activity q d values →
    d.WellFormed → d'.WellFormed → d.Narrows d' → d.Reports d' events → G.Accepts d →
    G.Accepts d' ∨ ∃ v event, (v, event) ∈ events ∧ G.Watches v event
  /-- What holds of narrower domains holds of wider ones. -/
  accepts_of_narrows : ∀ {d d'}, d.WellFormed → d'.WellFormed → d.Narrows d' → G.Accepts d' →
    G.Accepts d

/-- The propagator has a row of its own, its invariant holds for all states that the engine may
return to, and it is told of what it waits for. -/
structure Guarantee.Tracks (G : Guarantee) (e : Engine Rule) (p : PropagatorId) (activity : CellId)
    (q : Rule) : Prop where
  here : e.activity.get? p.index = some activity
  row : e.propagators.get? p.index = some q
  invariant : ∀ k, G.Invariant activity q (e.domains.past k) (e.store.cells.past k)
  older : ∀ j k, j ≤ k → q.Older (e.store.cells.past j) (e.store.cells.past k)
  watched : ∀ v event, G.Watches v event → p ∈ e.watches.affected event v

namespace Engine

/-- The propagator waits, or will wait once the pending events are handed out. -/
def Attends {P : Type} (e : Engine P) (p : PropagatorId) : Prop :=
  e.agenda.isWaiting p = true ∨
    ∃ v event, (v, event) ∈ e.domains.events ∧ p ∈ e.watches.affected event v

/-- Within the given number of rounds the fixpoint loop calls `p` on the engine `f`. -/
def CallsWithin {P : Type} [Propagator P] : Nat → Engine P → PropagatorId → Engine P → Prop
  | 0, _, _, _ => False
  | rounds + 1, e, p, f => ∃ e₁ q agenda, e.notify = .ok e₁ ∧ e₁.agenda.pop = (some q, agenda) ∧
      (q = p ∧ f = { e₁ with agenda } ∧ f.isActive p = .ok true ∨
        ∃ e₂, ({ e₁ with agenda } : Engine P).visit q = .ok (.ok (), e₂) ∧
          CallsWithin rounds e₂ p f)

/-- Propagation calls `p` on the engine `f`. -/
def Calls {P : Type} [Propagator P] (e : Engine P) (p : PropagatorId) (f : Engine P) : Prop :=
  e.CallsWithin e.rounds p f

theorem Sane.wellFormed_now {e : Engine Rule} (h : e.Sane) : e.domains.WellFormed :=
  h.store.wellFormed_now

end Engine

namespace Guarantee

variable {G : Guarantee} {e e' : Engine Rule} {p : PropagatorId} {activity : CellId} {q : Rule}

theorem Tracks.owned_eq (h : G.Tracks e p activity q) : e.owned p = activity :: q.cells :=
  Engine.owned_eq h.here h.row

theorem Tracks.invariant_now (h : G.Tracks e p activity q) (lawful : G.Lawful) (sane : e.Sane) :
    G.Invariant activity q e.domains e.store.cells.values := by
  have now := h.invariant e.domains.depth
  have level : e.store.cells.depth ≤ e.domains.depth := Nat.le_of_eq sane.store.depth
  rw [Domains.past_depth, Cells.past_of_depth_le level] at now
  have wellFormed := sane.wellFormed_now
  exact lawful.invariant_mono now ⟨wellFormed.integer, wellFormed.interval⟩ wellFormed
    ⟨(Domains.Narrows.refl _).integer, (Domains.Narrows.refl _).interval⟩ fun _ _ => rfl

/-- A step keeps what is tracked if every state that the engine may return to afterwards is one of
those before, up to narrowing and to the cells of others. -/
theorem Tracks.transport (h : G.Tracks e p activity q) (lawful : G.Lawful) (sane : e.Sane)
    (sane' : e'.Sane) (origin : Nat → Nat) (mono : ∀ j k, j ≤ k → origin j ≤ origin k)
    (here : e'.activity.get? p.index = some activity)
    (row : e'.propagators.get? p.index = some q)
    (narrows : ∀ k, (e.domains.past (origin k)).Narrows (e'.domains.past k))
    (cells : ∀ k, ∀ cell ∈ e.owned p,
      (e'.store.cells.past k).get? cell.index = (e.store.cells.past (origin k)).get? cell.index)
    (watched : ∀ v event, p ∈ e.watches.affected event v → p ∈ e'.watches.affected event v) :
    G.Tracks e' p activity q := by
  rw [h.owned_eq] at cells
  refine ⟨here, row, fun k => ?_, fun j k le cell mem => ?_, fun v event waits =>
    watched v event (h.watched v event waits)⟩
  · exact lawful.invariant_mono (h.invariant (origin k)) (sane.store.wellFormed _)
      (sane'.store.wellFormed _) (narrows k) (cells k)
  · have own := List.mem_cons_of_mem activity (q.sizes_subset mem)
    rw [cells j cell own, cells k cell own]
    exact h.older (origin j) (origin k) (mono j k le) cell mem

/-- An evolution of the store by others keeps what is tracked. -/
theorem Tracks.evolves (h : G.Tracks e p activity q) (lawful : G.Lawful) (sane : e.Sane)
    (sane' : e'.Sane) {own : List CellId} (evolves : e.store.Evolves own e'.store)
    (disjoint : ∀ cell ∈ e.owned p, cell ∉ own)
    (here : e'.activity.get? p.index = some activity)
    (row : e'.propagators.get? p.index = some q) (watches : e'.watches = e.watches) :
    G.Tracks e' p activity q := by
  refine h.transport lawful sane sane' id (fun _ _ => id) here row (fun k => ?_)
    (fun k cell mem => ?_) (fun v event => by rw [watches]; exact id)
  · by_cases below : k < e.domains.depth
    · show (e.store.domains.past k).Narrows (e'.store.domains.past k)
      rw [evolves.domains.past k below]
      exact .refl _
    · have above : e'.domains.depth ≤ k := by
        have := evolves.domains.depth
        simp only [Engine.domains] at *
        omega
      rw [Domains.past_of_depth_le above]
      have first := sane.store.narrows_now k
      exact first.trans ⟨evolves.domains.narrows.integer, evolves.domains.narrows.interval⟩
  · by_cases below : k < e.store.cells.depth
    · rw [evolves.cells.past k below]
      rfl
    · have above : e'.store.cells.depth ≤ k := by
        have := evolves.cells.depth
        omega
      rw [Cells.past_of_depth_le above, id, Cells.past_of_depth_le (Nat.le_of_not_lt below)]
      exact evolves.cells.others cell (disjoint cell mem)

/-- What happens to agenda, notes and pending events does not matter. -/
theorem Tracks.same (h : G.Tracks e p activity q) (here : e'.activity = e.activity)
    (row : e'.propagators = e.propagators) (past : ∀ k, e'.domains.past k = e.domains.past k)
    (cells : e'.store.cells = e.store.cells) (watches : e'.watches = e.watches) :
    G.Tracks e' p activity q := by
  refine ⟨by rw [here]; exact h.here, by rw [row]; exact h.row, fun k => ?_, ?_, ?_⟩
  · rw [past, cells]
    exact h.invariant k
  · rw [cells]
    exact h.older
  · rw [watches]
    exact h.watched

/-- A call of another propagator keeps what is tracked. -/
theorem Tracks.call_other (h : G.Tracks e p activity q) (lawful : G.Lawful) (sane : e.Sane)
    {other : PropagatorId} (differs : other ≠ p) {status : Status}
    (called : e.call other = .ok (status, e')) : G.Tracks e' p activity q := by
  obtain ⟨evolves, -⟩ := Engine.evolves_of_call sane called
  have sane' := Engine.sane_of_call sane called
  obtain ⟨_, _, q', s', here, row, ran, eq⟩ := Engine.call_spec called
  have index : other.index ≠ p.index := fun same => differs (by cases other; cases p; simp_all)
  refine h.evolves lawful sane sane' evolves (fun cell mem mem' => ?_) ?_ ?_ ?_
  · exact differs (sane.owned_disjoint other p cell mem' mem)
  · rw [eq]
    exact h.here
  · rw [eq]
    simp only [Table.get?_set, index, if_false]
    exact h.row
  · rw [eq]

/-- A call of the propagator itself keeps what is tracked; if it succeeds, the domains before the
call were accepted. -/
theorem tracks_of_call (h : G.Tracks e p activity q) (lawful : G.Lawful) (sane : e.Sane)
    (allowed : G.Allowed q e.domains) {status : Status}
    (called : e.call p = .ok (status, e')) :
    (∃ q', G.Tracks e' p activity q') ∧ (status = .ok () → G.Accepts e.domains) := by
  obtain ⟨evolves, -⟩ := Engine.evolves_of_call sane called
  obtain ⟨activity', q₀, q', s', here, row, ran, eq⟩ := Engine.call_spec called
  rw [h.here] at here
  rw [h.row] at row
  cases here
  cases row
  have nodup := sane.owned_nodup p
  rw [h.owned_eq] at nodup
  obtain ⟨invariant, sizes, older, kept, accepts⟩ := lawful.run ran sane.wellFormed_now nodup
    (h.invariant_now lawful sane) allowed
  have sane' := Engine.sane_of_call sane called
  have depth := sane.store.depth
  have now : e.store.cells.past e.store.cells.depth = e.store.cells.values :=
    Cells.past_of_depth_le (Nat.le_refl _)
  have before (k : Nat) (below : k < e.store.cells.depth) :
      q.Older (e.store.cells.past k) e.store.cells.values := by
    rw [← now]
    exact h.older _ _ (Nat.le_of_lt below)
  have oldCells (k : Nat) (below : k < e.store.cells.depth) :
      e'.store.cells.past k = e.store.cells.past k := evolves.cells.past k below
  have newCells (k : Nat) (above : ¬ k < e.store.cells.depth) :
      e'.store.cells.past k = s'.cells.values := by
    rw [Cells.past_of_depth_le (by rw [evolves.cells.depth]; omega), eq]
  have sameSizes : q'.Older = q.Older := by
    funext values values'
    simp only [Rule.Older, sizes]
  refine ⟨⟨q', by rw [eq]; exact h.here, ?_, fun k => ?_, fun j k le => ?_, ?_⟩, accepts⟩
  · rw [eq]
    simp [Table.get?_set, Table.lt_size_of_get? h.row]
  · by_cases below : k < e.store.cells.depth
    · rw [oldCells k below, show e'.domains.past k = e.domains.past k from
        evolves.domains.past k (by rw [← depth]; exact below)]
      exact kept _ _ (h.invariant k) (before k below)
    · have rows : e'.domains.past k = s'.domains.rows := by
        rw [Domains.past_of_depth_le (by
          rw [Engine.domains, evolves.domains.depth, ← depth]; omega), eq]
        rfl
      have wellFormed : s'.domains.WellFormed := by
        have := sane'.wellFormed_now
        rw [eq] at this
        exact this
      rw [newCells k below, rows]
      exact lawful.invariant_mono invariant wellFormed ⟨wellFormed.integer, wellFormed.interval⟩
        ⟨(Domains.Narrows.refl _).integer, (Domains.Narrows.refl _).interval⟩ fun _ _ => rfl
  · rw [sameSizes]
    by_cases below : k < e.store.cells.depth
    · rw [oldCells k below, oldCells j (by omega)]
      exact h.older j k le
    · rw [newCells k below]
      by_cases below' : j < e.store.cells.depth
      · rw [oldCells j below']
        exact (before j below').trans older
      · rw [newCells j below']
        exact .refl _ _
  · rw [eq]
    exact h.watched

/-- While the propagator is tracked, accepted domains stay accepted, or it is told of the change. -/
theorem accepts_or_attends (h : G.Tracks e p activity q) (lawful : G.Lawful) (sane : e.Sane)
    {own : List CellId} (evolves : e.store.Evolves own e'.store) (watches : e'.watches = e.watches)
    (accepts : G.Accepts e.domains) : G.Accepts e'.domains ∨ e'.Attends p := by
  obtain ⟨events, pending, reports⟩ := evolves.domains.reported
  rcases lawful.accepts_or_watches (h.invariant_now lawful sane) sane.wellFormed_now
    evolves.wellFormed evolves.domains.narrows reports accepts with accepts | ⟨v, event, mem, waits⟩
  · exact .inl accepts
  · refine .inr (.inr ⟨v, event, ?_, ?_⟩)
    · show (v, event) ∈ e'.store.domains.events
      rw [pending]
      exact List.mem_append_right _ mem
    · rw [watches]
      exact h.watched v event waits

/-- Whether domains are accepted depends on their rows only. -/
theorem Lawful.accepts_of_rows (lawful : G.Lawful) {d d' : Domains} (wellFormed : d'.WellFormed)
    (integers : d.integers = d'.integers) (intervals : d.intervals = d'.intervals)
    (accepts : G.Accepts d') : G.Accepts d := by
  have integer (x : IntegerId) : d.integer x = d'.integer x := by
    rw [Domains.integer, Domains.integer, integers]
  have interval (i : IntervalId) : d.interval i = d'.interval i := by
    rw [Domains.interval, Domains.interval, intervals]
  refine lawful.accepts_of_narrows ⟨fun x row found => ?_, fun i row found => ?_⟩ wellFormed
    ⟨fun x row found => ⟨row, by rw [← integer, found], .refl _⟩,
      fun i row found => ⟨row, by rw [← interval, found], .refl _⟩⟩ accepts
  · exact wellFormed.integer x row (by rw [← integer, found])
  · exact wellFormed.interval i row (by rw [← interval, found])

/-- A visit that goes well keeps what is tracked, and the propagator has accepted the domains or
will see them again. -/
theorem tracks_of_visit (h : G.Tracks e p activity q) (lawful : G.Lawful) (sane : e.Sane)
    {other : PropagatorId} {status : Status}
    (allowed : other = p → e.isActive p = .ok true → G.Allowed q e.domains)
    (visited : e.visit other = .ok (status, e')) :
    (∃ q', G.Tracks e' p activity q') ∧
      (status = .ok () → G.Accepts e.domains ∨ other ≠ p ∧ e.agenda.isWaiting p = true →
        G.Accepts e'.domains ∨ e'.Attends p) ∧
      (status = .ok () → other = p → G.Accepts e'.domains ∨ e'.Attends p) := by
  rcases Engine.visit_spec visited with ⟨idle, -, rfl⟩ | ⟨active, e₁, called, done, failed⟩
  · refine ⟨⟨q, h⟩, fun _ => Or.imp_right fun waits => .inl waits.2, ?_⟩
    rintro - rfl
    obtain ⟨cell, value, here, found, off⟩ := Engine.isActive_eq_ok idle
    rw [h.here] at here
    cases here
    have zero : value = 0 := by simpa using off
    exact .inl (lawful.accepts_of_idle (h.invariant_now lawful sane) sane.wellFormed_now
      (by rw [found, zero]))
  · obtain ⟨evolves, -⟩ := Engine.evolves_of_call sane called
    have watches : e₁.watches = e.watches := (Engine.advances_of_call sane called).watches
    have tracked : ∃ q', G.Tracks e₁ p activity q' := by
      by_cases same : other = p
      · subst same
        exact (tracks_of_call h lawful sane (allowed rfl active) called).1
      · exact ⟨q, h.call_other lawful sane same called⟩
    have after : ∃ q', G.Tracks e' p activity q' := by
      obtain ⟨q', tracked⟩ := tracked
      cases status with
      | ok =>
        rw [done rfl]
        exact ⟨q', tracked⟩
      | error cause =>
        obtain ⟨m, rfl⟩ := failed ⟨cause, rfl⟩
        exact ⟨q', tracked.same rfl rfl (fun _ => rfl) rfl rfl⟩
    refine ⟨after, ?_, ?_⟩
    · rintro rfl (accepts | ⟨-, waits⟩)
      · rw [done rfl]
        exact accepts_or_attends h lawful sane evolves watches accepts
      · obtain ⟨_, _, _, _, _, _, _, eq⟩ := Engine.call_spec called
        rw [done rfl, eq]
        exact .inr (.inl waits)
    · rintro rfl rfl
      have accepts := (tracks_of_call h lawful sane (allowed rfl active) called).2 rfl
      rw [done rfl]
      exact accepts_or_attends h lawful sane evolves watches accepts

/-- Propagation keeps what is tracked. If it starts with domains that are accepted, or with the
propagator waiting, and succeeds, the domains are accepted at the end. -/
theorem spec_of_loop (h : G.Tracks e p activity q) (lawful : G.Lawful) (sane : e.Sane)
    {rounds : Nat} {status : Status}
    (allowed : ∀ f q, e.CallsWithin rounds p f → G.Tracks f p activity q → G.Allowed q f.domains)
    (ran : e.loop rounds = .ok (status, e')) :
    (∃ q', G.Tracks e' p activity q') ∧
      (status = .ok () → G.Accepts e.domains ∨ e.Attends p → G.Accepts e'.domains) := by
  induction rounds generalizing e q with
  | zero => cases ran
  | succ rounds ih =>
    obtain ⟨e₁, notified, rest⟩ := bind_eq_ok_iff.1 ran
    cases popped : e₁.agenda.pop with
    | mk taken agenda =>
      obtain ⟨sane₁, -, eq, none, some⟩ := Engine.round_spec sane notified popped
      have h₁ : G.Tracks { e₁ with agenda } p activity q := by
        rw [eq]
        exact h.same rfl rfl (fun _ => rfl) rfl rfl
      have accepts₁ (accepts : G.Accepts e.domains) :
          G.Accepts ({ e₁ with agenda } : Engine Rule).domains := by
        rw [eq]
        exact lawful.accepts_of_rows sane.wellFormed_now rfl rfl accepts
      rw [popped] at rest
      cases taken with
      | none =>
        cases rest
        refine ⟨⟨q, h₁⟩, fun _ start => accepts₁ (start.resolve_right ?_)⟩
        rintro (waits | pending)
        · simp [(none rfl p).1] at waits
        · exact (none rfl p).2 pending
      | some other =>
        obtain ⟨⟨status', e₂⟩, visited, last⟩ := bind_eq_ok_iff.1 rest
        have sane₂ := (Engine.sane_of_visit sane₁ visited).1
        obtain ⟨⟨q₂, h₂⟩, keeps, own⟩ := tracks_of_visit h₁ lawful sane₁ (fun same active => by
          exact allowed _ q ⟨e₁, other, agenda, notified, popped, .inl ⟨same, rfl, active⟩⟩ h₁) visited
        cases status' with
        | error cause =>
          cases last
          exact ⟨⟨q₂, h₂⟩, fun eq => by cases eq⟩
        | ok =>
          obtain ⟨tracked, accepts⟩ := ih h₂ sane₂ (fun f q calls => allowed f q
            ⟨e₁, other, agenda, notified, popped, .inr ⟨e₂, visited, calls⟩⟩) last
          refine ⟨tracked, fun ok start => accepts ok ?_⟩
          by_cases same : other = p
          · exact own rfl same
          · refine keeps rfl (start.imp accepts₁ fun attends => ⟨same, ?_⟩)
            exact (some other rfl p).2 ⟨fun eq => same eq.symm, attends⟩

/-- What is tracked holds whenever some propagator is called. -/
theorem tracks_of_callsWithin (h : G.Tracks e p activity q) (lawful : G.Lawful) (sane : e.Sane)
    {rounds : Nat} {called : PropagatorId} {f : Engine Rule}
    (allowed : ∀ f q, e.CallsWithin rounds p f → G.Tracks f p activity q → G.Allowed q f.domains)
    (calls : e.CallsWithin rounds called f) : f.Sane ∧ ∃ q', G.Tracks f p activity q' := by
  induction rounds generalizing e q with
  | zero => exact calls.elim
  | succ rounds ih =>
    have given := calls
    obtain ⟨e₁, other, agenda, notified, popped, this⟩ := given
    obtain ⟨sane₁, -, eq, -, -⟩ := Engine.round_spec sane notified popped
    have h₁ : G.Tracks { e₁ with agenda } p activity q := by
      rw [eq]
      exact h.same rfl rfl (fun _ => rfl) rfl rfl
    rcases this with ⟨-, rfl, -⟩ | ⟨e₂, visited, later⟩
    · exact ⟨sane₁, q, h₁⟩
    · have sane₂ := (Engine.sane_of_visit sane₁ visited).1
      obtain ⟨⟨q₂, h₂⟩, -, -⟩ := tracks_of_visit h₁ lawful sane₁ (fun same active =>
        allowed _ q ⟨e₁, other, agenda, notified, popped, .inl ⟨same, rfl, active⟩⟩ h₁) visited
      exact ih h₂ sane₂ (fun f q calls => allowed f q
        ⟨e₁, other, agenda, notified, popped, .inr ⟨e₂, visited, calls⟩⟩) later

end Guarantee

end Scheduling
