import Scheduling.Proofs.Confinement
import Scheduling.Proofs.FreeRun
import Scheduling.Proofs.Usage

/-!
# A step takes nothing from its source

The interval behind a step has to follow the source of the step, and nothing else uses it. Whatever
happens to the source, the interval can follow it to every value that is left. There is one
exception: the step gets the presence that its source has at the time. If that is due to a decision,
and the solver returns to a checkpoint where it was still open, then the presence of the step stays
known, and only the values of the source that go with it can be followed.

Results:
* `Synchronisation.returns_propagate`: a synchronisation keeps the assignments that satisfy it.
* `Synchronisation.Offers`: every value of the source can be matched by the target.
* `Synchronisation.Spares`: that is so at all checkpoints, and nothing else touches the target; kept
  by `Synchronisation.Spares.call`, `Synchronisation.Spares.moves`, `Synchronisation.Spares.avoids`.
* `Usage.newStep_spares`: what a step leaves to its source.
* `Usage.exists_unmatched_of_newStep`: the exception.
-/

namespace Scheduling

open Propagation

/-! ## One value of one interval -/

/-- The assignment with another value of an interval. -/
def Assignment.put (a : Assignment) (i : IntervalId) (value : IntervalValue) : Assignment :=
  { a with interval := fun j => if j = i then value else a.interval j }

theorem Domains.Admits.put {d : Domains} {a : Assignment} (h : d.Admits a) {i : IntervalId}
    {v : Interval} {value : IntervalValue} (row : d.interval i = .ok v) (inside : v.Admits value) :
    d.Admits (a.put i value) := by
  refine ⟨h.integer, fun j w row' => ?_⟩
  simp only [Assignment.put]
  split
  · rename_i same
    rw [same, row] at row'
    cases row'
    exact inside
  · exact h.interval j w row'

/-! ## Times of endpoints -/

namespace Endpoint

variable {e : Endpoint} {value start length : Int}

theorem time?_placed (e : Endpoint) (start length : Int) :
    (IntervalValue.placed start length).time? e = some (e.time start (start + length)) := by
  cases e <;> rfl

theorem time_mem {b : Bounds} (h : b.Admits start length) :
    e.least b ≤ e.time start (start + length) ∧ e.time start (start + length) ≤ e.greatest b := by
  obtain ⟨h1, h2, h3, h4, -, -⟩ := h
  cases e <;> simp only [least, greatest, time] <;> omega

theorem keeps_leastBound (h : value ≤ e.time start (start + length)) :
    e.leastBound.Keeps value start length := by
  cases e <;> exact h

theorem keeps_greatestBound (h : e.time start (start + length) ≤ value) :
    e.greatestBound.Keeps value start length := by
  cases e <;> exact h

end Endpoint

namespace Synchronisation

/-! ## Runs that keep an assignment -/

section Run

variable {p : Synchronisation} {a : Assignment} {s₀ s : Store} {v w : Interval}

/-- Either both intervals are absent, or the target is placed at the endpoint of the source. -/
theorem cases_of_holds (holds : p.Holds a) :
    a.interval p.source = .absent ∧ a.interval p.target = .absent ∨
      ∃ start length length', a.interval p.source = .placed start length ∧
        a.interval p.target = .placed (p.point.time start (start + length)) length' := by
  unfold Holds at holds
  cases source : a.interval p.source <;> cases target : a.interval p.target <;>
    simp only [source, target, Endpoint.time?_placed] at holds
  case absent.absent => exact .inl ⟨rfl, rfl⟩
  case placed.placed =>
    cases holds
    exact .inr ⟨_, _, _, rfl, rfl⟩
  all_goals cases holds

theorem isPresent_eq_of_holds (holds : p.Holds a) :
    (a.interval p.target).isPresent = (a.interval p.source).isPresent := by
  rcases cases_of_holds holds with ⟨source, target⟩ | ⟨start, length, length', source, target⟩
  · rw [source, target]
  · rw [source, target]
    rfl

/-- A target that is placed starts within the bounds of the endpoint of its source. -/
theorem time_mem_of_holds (holds : p.Holds a) (admits : v.Admits (a.interval p.source))
    {start length : Int} (placed : a.interval p.target = .placed start length) :
    p.point.least v.toBounds ≤ start ∧ start ≤ p.point.greatest v.toBounds := by
  rcases cases_of_holds holds with ⟨-, absent⟩ | ⟨start', length', _, source, target⟩
  · rw [absent] at placed
    cases placed
  · rw [target] at placed
    cases placed
    rw [source] at admits
    exact Endpoint.time_mem admits.2

/-- A source that is placed has its endpoint within the bounds of the start of its target. -/
theorem start_mem_of_holds (holds : p.Holds a) (admits : w.Admits (a.interval p.target))
    {start length : Int} (placed : a.interval p.source = .placed start length) :
    w.startMin ≤ p.point.time start (start + length) ∧
      p.point.time start (start + length) ≤ w.startMax := by
  rcases cases_of_holds holds with ⟨absent, -⟩ | ⟨start', length', _, source, target⟩
  · rw [absent] at placed
    cases placed
  · rw [source] at placed
    cases placed
    rw [target] at admits
    exact ⟨admits.2.startMin_le, admits.2.le_startMax⟩

/-- A presence is copied to an interval that has it already. -/
theorem returns_copyPresence {i j : IntervalId} (keeps : s₀.Keeps a s)
    (row : s₀.domains.interval i = .ok v) (row' : s₀.domains.interval j = .ok w)
    (same : (a.interval j).isPresent = (a.interval i).isPresent) :
    Returns (copyPresence i j) s fun _ s' => s₀.Keeps a s' := by
  obtain ⟨v', here, -⟩ := keeps.narrows.interval i v row
  have inside := keeps.admits.interval i v' here
  refine returns_inspect_bind here ?_
  cases presence : v'.presence with
  | optional => exact returns_pure keeps
  | present =>
    refine returns_update keeps row' (u := .present) fun absent => ?_
    rw [absent] at same
    cases value : a.interval i <;> simp [value, IntervalValue.isPresent] at same
    rw [value] at inside
    exact inside presence
  | absent =>
    refine returns_update keeps row' (u := .absent) ?_
    cases value : a.interval j with
    | absent => rfl
    | placed start length =>
      rw [value] at same
      cases value' : a.interval i <;> simp [value', IntervalValue.isPresent] at same
      rw [value'] at inside
      exact absurd presence inside.1

variable (row : s₀.domains.interval p.source = .ok v) (row' : s₀.domains.interval p.target = .ok w)
  (holds : p.Holds a)
include row row' holds

theorem returns_agree (keeps : s₀.Keeps a s) : Returns p.agree s fun _ s' => s₀.Keeps a s' := by
  have same := isPresent_eq_of_holds holds
  exact returns_bind (returns_copyPresence keeps row row' same) fun _ _ keeps' =>
    returns_copyPresence keeps' row' row same.symm

/-- A run keeps every assignment that satisfies the synchronisation. -/
theorem returns_propagate {context : Context} (keeps : s₀.Keeps a s)
    (inside : context.activity.index < s₀.cells.values.size) :
    Returns (p.propagate context) s fun _ s' => s'.domains.Admits a := by
  refine returns_bind (returns_agree row row' holds keeps) fun _ s₁ keeps₁ => ?_
  obtain ⟨v₁, here, -⟩ := keeps₁.narrows.interval _ v row
  have admits := keeps₁.admits.interval _ v₁ here
  refine returns_inspect_bind here ?_
  split
  · exact returns_writeCell (by rw [keeps₁.cells]; exact inside) fun _ _ => keeps₁.admits
  -- both values lie where the bounds of the other interval are copied to
  refine returns_bind (returns_tighten keeps₁ row' fun start length placed =>
    (time_mem_of_holds holds admits placed).1) fun _ s₂ keeps₂ => ?_
  refine returns_bind (returns_tighten keeps₂ row' fun start length placed =>
    (time_mem_of_holds holds admits placed).2) fun _ s₃ keeps₃ => ?_
  obtain ⟨w₁, here', -⟩ := keeps₃.narrows.interval _ w row'
  have admits' := keeps₃.admits.interval _ w₁ here'
  refine returns_inspect_bind here' ?_
  refine returns_bind (returns_tighten keeps₃ row fun start length placed =>
    Endpoint.keeps_leastBound (start_mem_of_holds holds admits' placed).1) fun _ s₄ keeps₄ => ?_
  refine returns_bind (returns_tighten keeps₄ row fun start length placed =>
    Endpoint.keeps_greatestBound (start_mem_of_holds holds admits' placed).2) fun _ s₅ keeps₅ => ?_
  exact (returns_agree row row' holds keeps₅).weaken fun _ _ keeps₆ => keeps₆.admits

end Run

/-- A run keeps two values that match. -/
theorem returns_of_meets {p : Synchronisation} {context : Context} {s : Store} {v w : Interval}
    (wellFormed : s.domains.WellFormed) (distinct : p.source ≠ p.target)
    (row : s.domains.interval p.source = .ok v) (row' : s.domains.interval p.target = .ok w)
    (inside : context.activity.index < s.cells.values.size) {x y : IntervalValue}
    (source : v.Admits x) (target : w.Admits y) (meets : y.time? .start = x.time? p.point) :
    Returns (p.propagate context) s fun _ s' =>
      (∀ v', s'.domains.interval p.source = .ok v' → v'.Admits x) ∧
        ∀ w', s'.domains.interval p.target = .ok w' → w'.Admits y := by
  -- some assignment has these two values
  obtain ⟨a, admits⟩ := wellFormed.exists_admits
  let b := (a.put p.source x).put p.target y
  have first : b.interval p.source = x := by simp [b, Assignment.put, distinct]
  have second : b.interval p.target = y := by simp [b, Assignment.put]
  have holds : p.Holds b := by
    rw [Holds, first, second]
    exact meets
  refine (returns_propagate row row' holds (.refl wellFormed ((admits.put row source).put row' target))
    inside).weaken fun _ s' kept => ⟨fun v' here => ?_, fun w' here => ?_⟩
  · exact first ▸ kept.interval _ v' here
  · exact second ▸ kept.interval _ w' here

/-! ## Values that a target can match -/

/-- Every value of the source with the property can be matched by the target. -/
def Offers (p : Synchronisation) (A : IntervalValue → Prop) (d : Domains) : Prop :=
  ∃ v w, d.interval p.source = .ok v ∧ d.interval p.target = .ok w ∧
    ∀ value, v.Admits value → A value →
      ∃ value', w.Admits value' ∧ value'.time? .start = value.time? p.point

section Offers

variable {p : Synchronisation} {A : IntervalValue → Prop} {d d' : Domains}

theorem Offers.of_rows (h : p.Offers A d) (source : d'.interval p.source = d.interval p.source)
    (target : d'.interval p.target = d.interval p.target) : p.Offers A d' := by
  unfold Offers
  rw [source, target]
  exact h

/-- Fewer values of the source, and the same of the target. -/
theorem Offers.of_narrows (h : p.Offers A d) (narrows : d.Narrows d')
    (target : d'.interval p.target = d.interval p.target) : p.Offers A d' := by
  obtain ⟨v, w, row, row', matched⟩ := h
  obtain ⟨v', here, narrower⟩ := narrows.interval _ v row
  exact ⟨v', w, here, target.trans row', fun value inside =>
    matched value (narrower.admits inside)⟩

/-- A run of the synchronisation takes no value away that the target can match. -/
theorem Offers.run {context : Context} {status : Status} {s s' : Store}
    (h : p.Offers A s.domains) (distinct : p.source ≠ p.target) (wellFormed : s.domains.WellFormed)
    (inside : context.activity.index < s.cells.values.size) (narrows : s.domains.Narrows s'.domains)
    (ran : (p.propagate context).exec s = .ok (status, s')) : p.Offers A s'.domains := by
  obtain ⟨v, w, row, row', matched⟩ := h
  obtain ⟨v', here, narrower⟩ := narrows.interval _ v row
  obtain ⟨w', here', -⟩ := narrows.interval _ w row'
  refine ⟨v', w', here, here', fun value left holds => ?_⟩
  obtain ⟨value', match', time⟩ := matched value (narrower.admits left) holds
  obtain ⟨_, _, ran', -, kept⟩ :=
    returns_of_meets wellFormed distinct row row' inside (narrower.admits left) match' time
  rw [ran] at ran'
  cases ran'
  exact ⟨value', kept w' here', time⟩

theorem Offers.past (h : ∀ k, p.Offers A (d.past k)) (evolves : d.Evolves d')
    (now : p.Offers A d') (k : Nat) : p.Offers A (d'.past k) := by
  by_cases above : k < d.depth
  · rw [evolves.past k above]
    exact h k
  · rw [Domains.past_of_depth_le (by rw [evolves.depth]; omega)]
    exact now.of_rows rfl rfl

end Offers

/-! ## Targets that nothing else uses -/

/-- At every checkpoint the values with the property can be matched, and nothing but the
synchronisation touches its target. -/
structure Spares (p : Synchronisation) (A : IntervalValue → Prop) (e : Engine Rule) : Prop where
  distinct : p.source ≠ p.target
  offers : ∀ k, p.Offers A (e.domains.past k)
  alone : ∀ r q, e.propagators.get? r = some q → q.Touches p.target → q = .synchronisation p

namespace Spares

variable {p : Synchronisation} {A : IntervalValue → Prop} {e e' : Engine Rule}

theorem now (h : p.Spares A e) : p.Offers A e.domains := by
  have here := h.offers e.domains.depth
  rw [Domains.past_depth] at here
  exact here.of_rows rfl rfl

theorem silently (h : p.Spares A e) (same : e.Silently e') : p.Spares A e' :=
  ⟨h.distinct, fun k => by rw [same.past]; exact h.offers k,
    by rw [same.propagators]; exact h.alone⟩

/-- A call of the synchronisation takes nothing away, and one of another propagator leaves the
target alone. -/
theorem call (h : p.Spares A e) (sane : e.Sane) {r : PropagatorId} {status : Status}
    (called : e.call r = .ok (status, e')) : p.Spares A e' := by
  obtain ⟨evolves, -⟩ := Engine.evolves_of_call sane called
  obtain ⟨activity, q, q', s', here, row, ran, rfl⟩ := Engine.call_spec called
  have wellFormed := sane.wellFormed_now
  have narrows := evolves.domains.narrows
  have now : p.Offers A s'.domains := by
    by_cases touches : q.Touches p.target
    · cases h.alone _ q row touches
      obtain ⟨p', rfl, lifted⟩ := Rule.lift_spec ran
      obtain ⟨-, propagated⟩ := Rule.plain_spec (x := p.propagate ⟨r, activity⟩) lifted
      have owned : activity ∈ e.owned r := by
        rw [Engine.owned_eq here row]
        exact List.mem_cons_self
      exact h.now.run h.distinct wellFormed (sane.owned_lt r activity owned) narrows propagated
    · exact h.now.of_narrows narrows (Rule.interval_eq_of_run ran touches)
  refine ⟨h.distinct, Offers.past h.offers evolves.domains now, fun r' q₀ row₀ touches => ?_⟩
  by_cases same : r.index = r'
  · subst same
    rw [Table.get?_set, if_pos rfl, if_pos (Table.lt_size_of_get? row)] at row₀
    cases row₀
    cases h.alone _ q row ((Rule.touches_iff_of_run ran).1 touches)
    obtain ⟨p', rfl, lifted⟩ := Rule.lift_spec ran
    obtain ⟨rfl, -⟩ := Rule.plain_spec (x := p.propagate ⟨r, activity⟩) lifted
    rfl
  · exact h.alone r' q₀ (by simpa [Table.get?_set, same] using row₀) touches

theorem loop (h : p.Spares A e) (sane : e.Sane) {rounds : Nat} {status : Status}
    (ran : e.loop rounds = .ok (status, e')) : p.Spares A e' :=
  Engine.invariant_of_loop (fun _ => silently) (fun sane h => h.call sane) sane h ran

/-- A decision about something else. -/
theorem change (h : p.Spares A e) (sane : e.Sane) {d : Decision} {status : Status}
    (other : ∀ u, d ≠ .update p.target u) (changed : e.change d.write = .ok (status, e')) :
    p.Spares A e' := by
  rcases Engine.change_spec changed with ⟨domains, wrote, -, rfl⟩ | ⟨-, -, rfl⟩
  · obtain ⟨-, evolves⟩ := d.evolves_of_write sane.wellFormed_now wrote
    have now := h.now.of_narrows evolves.narrows (Decision.interval_eq_of_write wrote other)
    exact ⟨h.distinct, Offers.past h.offers evolves now, h.alone⟩
  · exact h

theorem install (h : p.Spares A e) {b : Blueprint Rule} {r : PropagatorId}
    (installed : e.Installed b r e')
    (built : ∀ r cell, (b.build r cell).Touches p.target → b.build r cell = .synchronisation p) :
    p.Spares A e' := by
  refine ⟨h.distinct, by rw [installed.domains]; exact h.offers, fun r' q row touches => ?_⟩
  rw [installed.propagators, Table.get?_push] at row
  split at row
  · cases row
    exact built _ _ touches
  · exact h.alone r' q row touches

theorem undoTo (h : p.Spares A e) {k : Nat} (undone : e.undoTo k = .ok e') : p.Spares A e' := by
  obtain ⟨domains, cells, first, -, rfl⟩ := Engine.undoTo_spec undone
  obtain ⟨-, -, -, past, -⟩ := Domains.undo_spec first
  exact ⟨h.distinct, fun j => (past j).symm ▸ h.offers (min k j), h.alone⟩

theorem addInterval (h : p.Spares A e) (sane : e.Sane) (row : Interval) :
    p.Spares A (e.withDomains (e.domains.addInterval row)) := by
  refine ⟨h.distinct, fun k => ?_, h.alone⟩
  have past : (e.withDomains (e.domains.addInterval row)).domains.past k =
      (e.domains.past k).addInterval row := Domains.past_addInterval sane.store.recordedRows row k
  obtain ⟨v, w, source, target, matched⟩ := h.offers k
  rw [past]
  exact ⟨v, w, Domains.interval_addInterval source row, Domains.interval_addInterval target row,
    matched⟩

/-- An operation that neither decides the target nor posts a propagator about it. -/
theorem moves {s : Solver Rule} (h : p.Spares A s.engine) (sane : s.engine.Sane) {op : Operation}
    (decides : ∀ u, op ≠ .decide (.update p.target u))
    (posts : ∀ x, op = .post x → ∀ r cell, (x.blueprint.build r cell).Touches p.target →
      x.blueprint.build r cell = .synchronisation p) (moved : op.Moves s e') : p.Spares A e' := by
  cases moved with
  | @newInteger lower upper le =>
    refine ⟨h.distinct, fun k => ?_, h.alone⟩
    have past : (s.engine.newInteger ⟨lower, upper⟩).2.domains.past k =
        (s.engine.domains.past k).addInteger ⟨lower, upper⟩ :=
      Domains.past_addInteger sane.store.recordedRows _ k
    exact (h.offers k).of_rows (by rw [past]; rfl) (by rw [past]; rfl)
  | newInterval consistent => exact h.addInterval sane _
  | checkpoint =>
    exact ⟨h.distinct, fun k => (Domains.past_checkpoint s.engine.domains k).symm ▸ h.offers k,
      h.alone⟩
  | undoTo undone => exact h.undoTo undone
  | refused => exact h
  | silent _ same => exact h.silently same
  | @propagated _ f _ _ _ enters ran same =>
    have entered : p.Spares A f := by
      cases op with
      | decide d => exact h.change sane (fun u eq => decides u (by rw [eq])) enters.2
      | propagate => exact enters.2 ▸ h
      | post x =>
        obtain ⟨-, r, installed⟩ := enters
        exact h.install (Engine.installed_of_install installed) (posts x rfl)
      | _ => exact enters.elim
    exact (entered.loop (enters.sane sane) ran).silently same

end Spares

end Synchronisation

/-! ## Runs -/

/-- The operation decides the interval, or posts a propagator that touches it. -/
def Operation.Touches (i : IntervalId) : Operation → Prop
  | decide d => ∃ u, d = .update i u
  | post x => ∃ r cell, (x.blueprint.build r cell).Touches i
  | _ => False

/-- Runs of operations that do not touch the interval. Any of them may follow any other. -/
inductive Avoids (i : IntervalId) : State → State → Prop
  | refl {c : State} : Avoids i c c
  | next {c c' c'' : State} {op : Operation} : Avoids i c c' → op.Valid c'.solver →
    ¬ op.Touches i → op.run c'.solver = .ok c'' → Avoids i c c''

theorem Avoids.freeRuns {i : IntervalId} {c c' : State} (h : Avoids i c c') : FreeRuns c c' := by
  induction h with
  | refl => exact .refl
  | next _ valid _ ran ih => exact .next ih valid ran

theorem Avoids.trans {i : IntervalId} {a b c : State} (h : Avoids i a b) (h' : Avoids i b c) :
    Avoids i a c := by
  induction h' with
  | refl => exact h
  | next _ valid spared ran ih => exact .next ih valid spared ran

theorem avoids_of_trace {i : IntervalId} {c c' : State} {ops : List Operation}
    (spared : ∀ op ∈ ops, ¬ op.Touches i) (h : c.trace ops = some c') : Avoids i c c' := by
  induction ops generalizing c with
  | nil =>
    cases h
    exact .refl
  | cons op ops ih =>
    rw [State.trace, List.foldlM_cons] at h
    obtain ⟨c₁, first, rest⟩ := Option.bind_eq_some_iff.1 h
    have step := step_of_next? first
    exact (Avoids.next .refl step.valid (spared op List.mem_cons_self) step.ran).trans
      (ih (fun op mem => spared op (List.mem_cons_of_mem _ mem)) rest)

theorem avoids_follow {i : IntervalId} (c : State) {ops : List Operation}
    (spared : ∀ op ∈ ops, ¬ op.Touches i) : Avoids i c (c.follow ops) := by
  unfold State.follow
  cases h : c.trace ops with
  | none => exact .refl
  | some c' => exact avoids_of_trace spared h

namespace Synchronisation

variable {p : Synchronisation} {A : IntervalValue → Prop} {c c' : State}

theorem Spares.avoids (h : p.Spares A c.solver.engine) (accessible : Accessible c)
    (runs : Avoids p.target c c') : p.Spares A c'.solver.engine := by
  induction runs with
  | refl => exact h
  | @next c' c'' op before valid spared ran ih =>
    have sane := sane_of_accessible (accessible.trans before.freeRuns)
    refine ih.moves sane (fun u eq => ?_) (fun x eq r cell touches => ?_)
      (Operation.moves_of_run ran)
    · exact spared (eq ▸ ⟨u, rfl⟩)
    · exact absurd (eq ▸ ⟨r, cell, touches⟩) spared

end Synchronisation

/-! ## Creating a step -/

/-- The value goes with the presence. -/
def Presence.Allows (presence : Presence) : IntervalValue → Prop
  | .absent => presence ≠ .present
  | .placed _ _ => presence ≠ .absent

/-- The interval has the same presence at all checkpoints: no return changes it. -/
def Domains.KeepsPresence (d : Domains) (i : IntervalId) : Prop :=
  ∀ j k v w, (d.past j).interval i = .ok v → (d.past k).interval i = .ok w → v.presence = w.presence

theorem Interval.Admits.allows {v : Interval} {value : IntervalValue} (h : v.Admits value) :
    v.presence.Allows value := by
  cases value with
  | absent => exact h
  | placed start length => exact h.1

namespace Synchronisation

/-- A new target can start at every time: it matches every value that goes with its presence. -/
theorem exists_match {presence : Presence} {row v : Interval} {value : IntervalValue}
    (point : Endpoint) (made : Interval.ofBounds targetBounds presence = .ok row)
    (wellFormed : v.WellFormed) (admits : v.Admits value) (allows : presence.Allows value) :
    ∃ value', row.Admits value' ∧ value'.time? .start = value.time? point := by
  obtain ⟨same, -, -, keeps⟩ := Interval.ofBounds_spec withinHorizon_targetBounds made
  cases value with
  | absent => exact ⟨.absent, by rwa [Interval.Admits, same], rfl⟩
  | placed start length =>
    have placed := admits.2
    have low : -horizon ≤ start := Int.le_trans wellFormed.horizon_le placed.startMin_le
    have high : start + length ≤ horizon := Int.le_trans placed.le_endMax wellFormed.le_horizon
    have nonneg : 0 ≤ length := Int.le_trans wellFormed.length_nonneg placed.lengthMin_le
    obtain ⟨t, time, least, greatest⟩ : ∃ t,
        (IntervalValue.placed start length).time? point = some t ∧ -horizon ≤ t ∧ t ≤ horizon := by
      refine ⟨_, Endpoint.time?_placed point start length, ?_⟩
      cases point <;> simp only [Endpoint.time] <;> omega
    have inside : row.toBounds.Admits t (horizon - t) := by
      refine keeps _ _ ?_
      constructor <;> simp only [targetBounds] <;> omega
    exact ⟨.placed t (horizon - t), ⟨by rwa [same], inside⟩, time.symm⟩

/-- A new target spares its source, but for values that do not go with the presence that is copied.
These matter only if a return can change the presence. -/
theorem spares_new {e : Engine Rule} (sane : e.Sane) {source : IntervalId} (point : Endpoint)
    {v row : Interval} (known : e.domains.interval source = .ok v)
    (made : Interval.ofBounds targetBounds v.presence = .ok row)
    (unused : ∀ r q, e.propagators.get? r = some q → ¬ q.Touches e.domains.nextInterval) :
    (⟨source, e.domains.nextInterval, point⟩ : Synchronisation).Spares
      (fun value => e.domains.KeepsPresence source ∨ v.presence.Allows value)
      (e.withDomains (e.domains.addInterval row)) := by
  have inside := Table.lt_size_of_get? (Domains.interval_eq_ok_iff.1 known)
  refine ⟨fun same => ?_, fun k => ?_, fun r q row touches => absurd touches (unused r q row)⟩
  · rw [show source = e.domains.nextInterval from same] at inside
    exact Nat.lt_irrefl _ inside
  have past : (e.withDomains (e.domains.addInterval row)).domains.past k =
      (e.domains.past k).addInterval row := Domains.past_addInterval sane.store.recordedRows row k
  have size := (Domains.size_past e.domains k).2
  obtain ⟨u, found⟩ := Table.exists_get? (show source.index < (e.domains.past k).intervals.size by
    rw [size]; exact inside)
  have here : (e.domains.past k).interval source = .ok u := Domains.interval_eq_ok_iff.2 found
  rw [past]
  refine ⟨u, row, Domains.interval_addInterval here row, ?_, fun value admits open' => ?_⟩
  · rw [Domains.interval_eq_ok_iff, Domains.addInterval, Table.get?_push, if_pos]
    exact size.symm
  refine exists_match point made ((sane.store.wellFormed k).interval _ u here) admits ?_
  rcases open' with keeps | allows
  · have now : (e.domains.past e.domains.depth).interval source = .ok v := by
      rw [Domains.past_depth]
      exact known
    rw [← keeps k _ u v here now]
    exact admits.allows
  · exact allows

end Synchronisation

namespace Usage

/-- Creating a step takes no value away from its source. As long as nothing else uses the interval
behind the step, it can match every value that the source can still take, if no return can change
the presence of the source; else every value that goes with the presence that the source had. -/
theorem newStep_spares {c c' : State} {s : Solver Rule} {source dummy : IntervalId}
    {point : Endpoint} {height : IntegerId} (reachable : Reachable c) (last : c.last ≠ .failed)
    (created : (newStep source point height).run.run c.solver =
      .ok (.ok (step source point dummy height), s))
    (unused : ∀ r q, c.solver.engine.propagators.get? r = some q → ¬ q.Touches dummy)
    (runs : Avoids dummy ⟨s, .done⟩ c') :
    ∃ v, c.solver.domains.interval source = .ok v ∧ ∃ u w,
      c'.solver.domains.interval source = .ok u ∧ c'.solver.domains.interval dummy = .ok w ∧
        ∀ value, u.Admits value →
          c.solver.domains.KeepsPresence source ∨ v.presence.Allows value →
            ∃ value', w.Admits value' ∧ value'.time? .start = value.time? point := by
  have sane := sane_of_reachable reachable
  obtain ⟨target, eq, made⟩ := newStep_spec created
  cases eq
  obtain ⟨ready, v, row, c₁, known, consistent, rfl, same, -, ready₁, posted, -⟩ :=
    Synchronisation.exists_steps_of_newSynchronisedInterval sane last made
  have start := Synchronisation.spares_new ready.sane point known consistent unused
  rw [show c.solver.engine.withDomains _ = c₁.solver.engine by rw [same]; rfl] at start
  have stepped := start.moves ready₁.sane (fun u eq => by cases eq)
    (fun x eq r cell _ => by cases eq; rfl) (Operation.moves_of_run posted.ran)
  have accessible : Accessible ⟨s, .done⟩ :=
    (Steps.trans reachable (runs_of_newStep sane last created)).freeRuns
  obtain ⟨u, w, row, row', matched⟩ := (stepped.avoids accessible runs).now
  exact ⟨v, known, u, w, row, row', matched⟩

/-- An optional interval of length `3` between `0` and `10`, and a height of `1`; a checkpoint is
open. -/
def openStart : State :=
  .reach [.newInterval ⟨0, 7, 3, 10, 3, 3⟩ .optional, .newInteger 1 1, .checkpoint]

/-- The height from the start of the interval on. -/
def openStep : Posting Rule Usage := newStep ⟨0⟩ .start ⟨0⟩

/-- After the return from the checkpoint the interval turns out to be absent. -/
def openEnd : State :=
  .follow ⟨openStep.after openStart.solver, .done⟩
    [.decide (.update ⟨0⟩ .present), .undoTo 0, .decide (.update ⟨0⟩ .absent)]

theorem newStep_spares_open : ∃ u w,
    openEnd.solver.domains.interval ⟨0⟩ = .ok u ∧ openEnd.solver.domains.interval ⟨1⟩ = .ok w ∧
      ∀ value, u.Admits value →
        ∃ value', w.Admits value' ∧ value'.time? .start = value.time? .start := by
  have created : openStep.answer? openStart.solver = some (step ⟨0⟩ .start ⟨1⟩ ⟨0⟩) := by cbv
  have start : (openStart.last, openStart.solver.engine.propagators.size,
      openStart.solver.domains.intervals) =
      (.done, 0, ⟨#[⟨⟨0, 7, 3, 10, 3, 3⟩, .optional⟩]⟩) := by cbv
  simp only [Prod.mk.injEq] at start
  obtain ⟨last, none, rows⟩ := start
  have reachable : Reachable openStart := reachable_reach _
  have unused (r : Nat) (q : Rule) (found : openStart.solver.engine.propagators.get? r = some q) :
      ¬ q.Touches ⟨1⟩ := absurd (Table.lt_size_of_get? found) (by omega)
  have runs : Avoids ⟨1⟩ ⟨openStep.after openStart.solver, .done⟩ openEnd :=
    avoids_follow _ (by simp [Operation.Touches])
  obtain ⟨v, row, u, w, row', row'', matched⟩ := newStep_spares reachable (by rw [last]; decide)
    (Posting.run_eq_of_answer? created) unused runs
  refine ⟨u, w, row', row'', fun value admits => matched value admits (.inr ?_)⟩
  have here : openStart.solver.domains.intervals.get? 0 = some v := Domains.interval_eq_ok_iff.1 row
  rw [rows] at here
  cases here
  cases value <;> simp [Presence.Allows]

/-- The interval is present when the step is created. -/
def presentStart : State :=
  .reach [.newInterval ⟨0, 7, 3, 10, 3, 3⟩ .optional, .newInteger 1 1, .checkpoint,
    .decide (.update ⟨0⟩ .present)]

/-- After the return it is open whether the interval is present, but not for the step. -/
def presentEnd : State := .follow ⟨openStep.after presentStart.solver, .done⟩ [.undoTo 0]

/-- The presence that is copied outlives the decision for it. -/
theorem exists_unmatched_of_newStep : ∃ c s c', Reachable c ∧ c.last ≠ .failed ∧
    (newStep ⟨0⟩ .start ⟨0⟩).run.run c.solver = .ok (.ok (step ⟨0⟩ .start ⟨1⟩ ⟨0⟩), s) ∧
    (∀ r q, c.solver.engine.propagators.get? r = some q → ¬ q.Touches ⟨1⟩) ∧
    Avoids ⟨1⟩ ⟨s, .done⟩ c' ∧ c'.solver.isInfeasible = false ∧ c'.last = .done ∧ ∃ u w,
      c'.solver.domains.interval ⟨0⟩ = .ok u ∧ c'.solver.domains.interval ⟨1⟩ = .ok w ∧
        u.Admits .absent ∧ ¬ ∃ value', w.Admits value' ∧
          value'.time? .start = IntervalValue.absent.time? .start := by
  have created : openStep.answer? presentStart.solver = some (step ⟨0⟩ .start ⟨1⟩ ⟨0⟩) := by cbv
  have start : (presentStart.last, presentStart.solver.engine.propagators.size) = (.done, 0) := by
    cbv
  have final : (presentEnd.solver.isInfeasible, presentEnd.last,
      presentEnd.solver.domains.intervals) = (false, .done, ⟨#[⟨⟨0, 7, 3, 10, 3, 3⟩, .optional⟩,
        ⟨⟨-536870911, 536870911, 536870911, 536870911, 0, 1073741822⟩, .present⟩]⟩) := by cbv
  simp only [Prod.mk.injEq] at start final
  obtain ⟨last, none⟩ := start
  obtain ⟨feasible, last', rows⟩ := final
  have interval (k : Nat) : presentEnd.solver.domains.intervals.get? k = _ :=
    congrArg (Table.get? · k) rows
  refine ⟨presentStart, _, presentEnd, reachable_reach _, by rw [last]; decide,
    Posting.run_eq_of_answer? created,
    fun r q found => absurd (Table.lt_size_of_get? found) (by omega),
    avoids_follow _ (by simp [Operation.Touches]), feasible, last', _, _,
    Domains.interval_eq_ok_iff.2 (interval 0), Domains.interval_eq_ok_iff.2 (interval 1), ?_, ?_⟩
  · simp [Interval.Admits]
  · rintro ⟨value', inside, same⟩
    cases value' with
    | absent => exact inside rfl
    | placed start length => cases same

end Usage
end Scheduling
