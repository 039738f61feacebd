import Scheduling.Proofs.Inversion
import Scheduling.Proofs.Termination

/-!
# Views denote composed maps

Read from the domain outwards, the layers of a view compose to one map `x ↦ a * x + b`. As long as
no word overflows, the view behaves as the image of its domain under this map, although each layer
exchanges sides, rounds bounds and renames events on its own.

Results:
* `Affine.comp`, `Variable.composed`, `Expression.composed`: the composed map of layers and of
  steps.
* `Variable.side_composed`: the sign of its scale decides which end of the domain is which.
* `Variable.mem_watch_iff`: the events of the domain that are reported to a watcher of the view.
* `Variable.image_of_bound`, `Variable.change_filters`, `Variable.shows_iff`: reading a bound,
  setting a bound, and the events of a change, in terms of the values of the view.
* `WatchLists.Waits`: a propagator that waits for a view, among other registrations in any order.
* `Engine.woken_iff_reported`: a change of the domains wakes those who wait for what it reports.
* `Engine.woken_iff_shows`: who watches a view is woken by a change of its domain exactly if the
  change shows on the view.
* `Expression.denotes_composed`: the four together, for views that are made step by step.
-/

namespace Scheduling

/-! ## Composed maps -/

namespace Affine

/-- The map that applies `g` first. -/
def comp (f g : Affine) : Affine := ⟨f.scale * g.scale, f.scale * g.offset + f.offset⟩

@[simp] theorem eval_comp (f g : Affine) (y : Int) : (f.comp g).eval y = f.eval (g.eval y) := by
  simp only [comp, eval, Int.mul_add, Int.mul_assoc, Int.add_assoc]

theorem comp_assoc (f g h : Affine) : (f.comp g).comp h = f.comp (g.comp h) := by
  simp only [comp, Int.mul_add, Int.mul_assoc, Int.add_assoc]

/-- The side of the domain is found through both maps, one after the other. -/
theorem side_comp {f g : Affine} (first : f.scale ≠ 0) (second : g.scale ≠ 0) (s : Side) :
    (f.comp g).side s = g.side (f.side s) := by
  have sign : f.scale * g.scale < 0 ↔ (f.scale < 0 ↔ ¬ g.scale < 0) := by
    rw [mul_neg_iff]
    omega
  by_cases left : f.scale < 0 <;> by_cases right : g.scale < 0 <;> cases s <;>
    simp [comp, side, sign, left, right, Side.opposite]

theorem eval_lt_eval_iff {f : Affine} {y z : Int} :
    f.eval y < f.eval z ↔ 0 < f.scale ∧ y < z ∨ f.scale < 0 ∧ z < y := by
  have product : f.scale * (z - y) = f.eval z - f.eval y := by
    rw [Int.mul_sub]
    simp only [eval]
    omega
  rw [← Int.sub_pos, ← product, mul_pos_iff]
  omega

end Affine

namespace Variable

/-- The layers as one map. -/
def composed : Variable → Affine
  | plain _ => ⟨1, 0⟩
  | literal l => l.affine
  | affine inner f => f.comp inner.composed

@[simp] theorem eval_composed (v : Variable) (y : Int) : v.composed.eval y = v.eval y := by
  induction v with
  | plain => simp [composed, eval, Affine.eval]
  | literal => rfl
  | affine inner f ih => rw [composed, Affine.eval_comp, ih, eval]

theorem scale_composed_ne_zero {v : Variable} (h : v.IsInvertible) : v.composed.scale ≠ 0 := by
  induction v with
  | plain => exact one_ne_zero
  | literal l => exact l.scale_ne_zero
  | affine inner f ih => exact mul_ne_zero h.1 (ih h.2)

theorem eval_lt_eval_iff {v : Variable} {y z : Int} :
    v.eval y < v.eval z ↔
      0 < v.composed.scale ∧ y < z ∨ v.composed.scale < 0 ∧ z < y := by
  rw [← eval_composed, ← eval_composed, Affine.eval_lt_eval_iff]

/-- No two values of the domain have the same image. -/
theorem eval_eq_eval_iff {v : Variable} (h : v.IsInvertible) {y z : Int} :
    v.eval y = v.eval z ↔ y = z := by
  have nonzero := scale_composed_ne_zero h
  have less := v.eval_lt_eval_iff (y := y) (z := z)
  have greater := v.eval_lt_eval_iff (y := z) (z := y)
  omega

/-- The sides of the view are exchanged exactly if the composed map reverses the order. -/
theorem side_composed {v : Variable} (h : v.IsInvertible) (s : Side) :
    v.composed.side s = v.side s := by
  induction v generalizing s with
  | plain => rfl
  | literal => rfl
  | affine inner f ih =>
    rw [composed, Affine.side_comp h.1 (scale_composed_ne_zero h.2), ih h.2, side]

end Variable

namespace ViewStep

/-- A step as a map. -/
def affine : ViewStep → Affine
  | layer scale offset => ⟨scale, offset⟩
  | factor k => ⟨k, 0⟩
  | summand k => ⟨1, k⟩

/-- The step does not multiply by zero. -/
def IsInvertible (step : ViewStep) : Prop := step.affine.scale ≠ 0

instance (step : ViewStep) : Decidable step.IsInvertible := inferInstanceAs (Decidable (_ ≠ _))

/-- A step becomes a layer of its own, or goes into the outermost one. Either way it is the last map
of the composition. -/
theorem composed_of_apply {v w : Variable} {step : ViewStep} (h : step.apply v = .ok w) :
    w.composed = step.affine.comp v.composed ∧
      (step.IsInvertible → v.IsInvertible → w.IsInvertible) := by
  have layered {scale offset : Int} (made : v.view scale offset = .ok w) :
      w.composed = (Affine.mk scale offset).comp v.composed ∧
        (scale ≠ 0 → v.IsInvertible → w.IsInvertible) := by
    rw [Variable.view_eq_ok made]
    exact ⟨rfl, fun nonzero invertible => ⟨nonzero, invertible⟩⟩
  have merged {inner : Variable} {f g : Affine} (le : g = step.affine.comp f) :
      (Variable.affine inner g).composed = step.affine.comp (Variable.affine inner f).composed ∧
        (step.IsInvertible → (Variable.affine inner f).IsInvertible →
          (Variable.affine inner g).IsInvertible) := by
    subst le
    exact ⟨Affine.comp_assoc .., fun first second => ⟨mul_ne_zero first second.1, second.2⟩⟩
  cases step with
  | layer scale offset => exact layered h
  | factor k =>
    cases v with
    | plain x => exact layered h
    | literal l => exact layered h
    | affine inner f =>
      obtain ⟨scale, scaled, h⟩ := bind_eq_ok_iff.1 h
      obtain ⟨offset, shifted, h⟩ := bind_eq_ok_iff.1 h
      cases h
      refine merged ?_
      rw [(Width.mul_eq_ok_iff.1 scaled).2, (Width.mul_eq_ok_iff.1 shifted).2]
      simp only [affine, Affine.comp, Int.add_zero, Int.mul_comm]
  | summand k =>
    cases v with
    | plain x => exact layered h
    | literal l => exact layered h
    | affine inner f =>
      obtain ⟨offset, shifted, h⟩ := bind_eq_ok_iff.1 h
      cases h
      refine merged ?_
      rw [(Width.add_eq_ok_iff.1 shifted).2]
      simp only [affine, Affine.comp, Int.one_mul]

end ViewStep

namespace Expression

/-- The start and the steps as one map. -/
def composed (e : Expression) : Affine :=
  e.steps.foldl (fun f step => step.affine.comp f) e.start.composed

/-- Neither the start nor a step multiplies by zero. -/
def IsInvertible (e : Expression) : Prop :=
  e.start.IsInvertible ∧ ∀ step ∈ e.steps, step.IsInvertible

instance (e : Expression) : Decidable e.IsInvertible := inferInstanceAs (Decidable (_ ∧ _))

theorem composed_of_build {e : Expression} {v : Variable} (h : e.build = .ok v) :
    v.composed = e.composed ∧ (e.IsInvertible → v.IsInvertible) := by
  obtain ⟨start, steps⟩ := e
  simp only [build, composed, IsInvertible] at h ⊢
  induction steps generalizing start with
  | nil =>
    cases h
    exact ⟨rfl, fun invertible => invertible.1⟩
  | cons step steps ih =>
    rw [List.foldlM_cons] at h
    obtain ⟨next, taken, h⟩ := bind_eq_ok_iff.1 h
    obtain ⟨map, invertible⟩ := ViewStep.composed_of_apply taken
    obtain ⟨map', invertible'⟩ := ih next h
    refine ⟨by rw [map', map, List.foldl_cons], ?_⟩
    rintro ⟨first, all⟩
    exact invertible' ⟨invertible (all step List.mem_cons_self) first,
      fun step mem => all step (List.mem_cons_of_mem _ mem)⟩

end Expression

/-! ## Reading and setting bounds -/

namespace Variable

variable {v : Variable} {s : Side} {d d' : Domains} {row : IntegerDomain} {value : Int}

/-- A bound of a view is the least or the greatest of its values. -/
theorem image_of_bound (here : d.integer v.base = .ok row) (wellFormed : row.WellFormed)
    (fits : v.Fits (row.bound (v.side s))) :
    ∃ r, v.bound s d = .ok r ∧ (∃ y, row.Admits y ∧ v.eval y = r) ∧
      ∀ y, row.Admits y → s.Keeps r (v.eval y) := by
  refine ⟨_, (bound_eq_ok_iff here wellFormed).2 ⟨fits, rfl⟩,
    ⟨_, wellFormed.admits_bound _, rfl⟩, fun y admits => ?_⟩
  have ends := v.eval_bounds admits
  cases s
  · exact ends.1
  · exact ends.2

/-- Setting a bound of a view keeps exactly those values of the domain whose image is kept. It fails
if there is none, and then nothing changes. -/
theorem change_filters {P : Type} {e : Engine P} (here : e.domains.integer v.base = .ok row)
    (wellFormed : row.WellFormed) (invertible : v.IsInvertible) (reverts : v.Reverts s value) :
    (e.change (v.setBound s value) = .ok (.error .emptyDomain, e) ↔
      ∀ y, row.Admits y → ¬ s.Keeps value (v.eval y)) ∧
    ((∃ y, row.Admits y ∧ s.Keeps value (v.eval y)) →
      ∃ d new, e.change (v.setBound s value) = .ok (.ok (), e.withDomains d) ∧
        (∀ x, d.integer x = if v.base = x then .ok new else e.domains.integer x) ∧
        (∀ i, d.interval i = e.domains.interval i) ∧
        ∀ y, new.Admits y ↔ row.Admits y ∧ s.Keeps value (v.eval y)) := by
  obtain ⟨bound, mapped⟩ := exists_invert_iff.2 ⟨invertible, reverts⟩
  have set : v.setBound s value e.domains = e.domains.tighten v.base (v.side s) bound := by
    rw [setBound_eq, mapped]
    rfl
  have kept (y : Int) : (v.side s).Keeps bound y ↔ s.Keeps value (v.eval y) :=
    keeps_iff_of_invert mapped y
  have fails : row.update? (v.side s) bound = none ↔
      ∀ y, row.Admits y → ¬ s.Keeps value (v.eval y) := by
    simp only [IntegerDomain.update?_eq_none_iff wellFormed.lower_le, kept]
  cases after : row.update? (v.side s) bound with
  | none =>
    have removed := fails.1 after
    refine ⟨⟨fun _ => removed, fun _ => ?_⟩, fun ⟨y, admits, keeps⟩ =>
      absurd keeps (removed y admits)⟩
    refine bind_eq_ok_iff.2 ⟨none, ?_, rfl⟩
    rw [set]
    simp [Domains.tighten, here, after, bind, Except.bind, pure, Except.pure]
  | some new =>
    obtain ⟨d, tightened⟩ : ∃ d, e.domains.tighten v.base (v.side s) bound = .ok (some d) := by
      simp only [Domains.tighten, here, after, bind, Except.bind, pure, Except.pure]
      split <;> exact ⟨_, rfl⟩
    have changed : e.change (v.setBound s value) = .ok (.ok (), e.withDomains d) :=
      bind_eq_ok_iff.2 ⟨some d, set.trans tightened, rfl⟩
    refine ⟨⟨fun failed => ?_, fun removed => ?_⟩, fun _ => ?_⟩
    · rw [changed] at failed
      cases failed
    · rw [fails.2 removed] at after
      cases after
    · obtain ⟨old, new', here', updated, integers, intervals⟩ :=
        Domains.integer_of_tighten tightened
      obtain rfl := Except.ok.inj (here.symm.trans here')
      obtain rfl := Option.some.inj (after.symm.trans updated)
      exact ⟨d, new, changed, integers, intervals, fun y => by
        rw [IntegerDomain.admits_of_update? after, kept]⟩

end Variable

/-! ## Events -/

/-- The event of the domain underneath that shows as the given one of the view, and the other way
round. -/
def Variable.facing (v : Variable) (event : Event) : Event :=
  if v.side .lower = .lower then event else event.reversed

theorem Affine.side_opposite (f : Affine) (s : Side) : f.side s.opposite = (f.side s).opposite := by
  unfold side
  split <;> cases s <;> rfl

theorem Variable.side_opposite (v : Variable) (s : Side) :
    v.side s.opposite = (v.side s).opposite := by
  induction v generalizing s with
  | plain => rfl
  | literal l => exact l.affine.side_opposite s
  | affine inner f ih => rw [side, f.side_opposite, ih, side]

/-- Through all layers, a watcher of some events of the view waits for those of the domain that show
as one of them. -/
theorem Variable.mem_watch_iff {v : Variable} {events : EventSet} {event : Event} :
    event ∈ v.watch events ↔ v.facing event ∈ events := by
  induction v generalizing events with
  | plain => exact Iff.rfl
  | literal l =>
    simp only [watch, facing, side, Affine.side]
    by_cases negative : l.affine.scale < 0 <;> simp [negative, Side.opposite]
  | affine inner f ih =>
    have swapped := inner.side_opposite .lower
    simp only [watch, ih, facing, side, Affine.side]
    by_cases negative : f.scale < 0
    · simp only [negative, if_true, EventSet.mem_reversed]
      rw [swapped]
      cases inner.side .lower <;> simp [Side.opposite]
    · simp only [negative, if_false]

/-- The change shows as the event on a variable: one of its bounds moved, or it became fixed. -/
def Variable.Shows (v : Variable) (d d' : Domains) : Event → Prop
  | .lowerBound => ∃ old new, v.lower d = .ok old ∧ v.lower d' = .ok new ∧ old < new
  | .upperBound => ∃ old new, v.upper d = .ok old ∧ v.upper d' = .ok new ∧ new < old
  | .assign => v.isFixed d = .ok false ∧ v.isFixed d' = .ok true
  | .presence => False

theorem IntegerDomain.mem_eventsTo {old new : IntegerDomain} {event : Event} :
    event ∈ old.eventsTo new ↔ match event with
      | .lowerBound => old.lower < new.lower
      | .upperBound => new.upper < old.upper
      | .assign => new.lower = new.upper
      | .presence => False := by
  unfold eventsTo
  cases event <;> simp

/-- A domain that can still lose values has more than one. -/
theorem IntegerDomain.Narrows.lower_lt_of_ne {old new : IntegerDomain} (h : old.Narrows new)
    (wellFormed : new.WellFormed) (changed : new ≠ old) : old.lower < old.upper := by
  obtain ⟨low, high⟩ := h
  have le := wellFormed.lower_le
  obtain ⟨l, u⟩ := old
  obtain ⟨l', u'⟩ := new
  simp only [ne_eq, mk.injEq] at *
  omega

@[simp] theorem Variable.facing_facing (v : Variable) (event : Event) :
    v.facing (v.facing event) = event := by
  unfold facing
  split <;> simp

/-- What an event of a variable says about its values, as long as its layers stay in their words. -/
theorem Variable.shows_iff_eval {v : Variable} {d d' : Domains} {old new : IntegerDomain}
    (here : d.integer v.base = .ok old) (here' : d'.integer v.base = .ok new)
    (wellFormed : old.WellFormed) (wellFormed' : new.WellFormed)
    (fits : ∀ s, v.Fits (old.bound s)) (fits' : ∀ s, v.Fits (new.bound s)) (event : Event) :
    v.Shows d d' event ↔ match event with
      | .lowerBound => v.eval (old.bound (v.side .lower)) < v.eval (new.bound (v.side .lower))
      | .upperBound => v.eval (new.bound (v.side .upper)) < v.eval (old.bound (v.side .upper))
      | .assign => v.eval (old.bound (v.side .lower)) ≠ v.eval (old.bound (v.side .upper)) ∧
          v.eval (new.bound (v.side .lower)) = v.eval (new.bound (v.side .upper))
      | .presence => False := by
  have before (s : Side) : v.bound s d = .ok (v.eval (old.bound (v.side s))) :=
    (bound_eq_ok_iff here wellFormed).2 ⟨fits _, rfl⟩
  have after (s : Side) : v.bound s d' = .ok (v.eval (new.bound (v.side s))) :=
    (bound_eq_ok_iff here' wellFormed').2 ⟨fits' _, rfl⟩
  cases event <;>
    simp [Shows, isFixed, lower, upper, before, after, bind, Except.bind, pure, Except.pure]

/-- Tightening the domain reports exactly the events that show on the variable, each under the name
that it has for the domain. -/
theorem Variable.shows_iff {v : Variable} {d d' : Domains} {old : IntegerDomain} {s : Side}
    {value : Int} (invertible : v.IsInvertible) (here : d.integer v.base = .ok old)
    (wellFormed : old.WellFormed) (fits : ∀ s, v.Fits (old.bound s))
    (tightened : d.tighten v.base s value = .ok (some d')) :
    ∃ reported : List Event,
      d'.events = d.events ++ reported.map (fun event => (.integer v.base, event)) ∧
      ∀ event, v.Shows d d' event ↔ v.facing event ∈ reported := by
  obtain ⟨_, new, here', updated, integers, -⟩ := Domains.integer_of_tighten tightened
  obtain rfl := Except.ok.inj (here.symm.trans here')
  obtain ⟨_, _, here', updated', cases⟩ := Domains.tighten_cases tightened
  obtain rfl := Except.ok.inj (here.symm.trans here')
  obtain rfl := Option.some.inj (updated.symm.trans updated')
  obtain ⟨wellFormed', narrows⟩ := IntegerDomain.narrows_of_update? wellFormed updated
  have found : d'.integer v.base = .ok new := by rw [integers, if_pos rfl]
  have fits' (s : Side) : v.Fits (new.bound s) := by
    have inside := narrows.admits (wellFormed'.admits_bound s)
    exact fits_of_between (fits .lower) (fits .upper) inside.1 inside.2
  have shows := shows_iff_eval here found wellFormed wellFormed' fits fits'
  rcases cases with ⟨rfl, rfl⟩ | ⟨changed, rfl⟩
  · refine ⟨[], by simp, fun event => ?_⟩
    rw [shows]
    cases event <;> simp
  · refine ⟨old.eventsTo new, rfl, fun event => ?_⟩
    have several := narrows.lower_lt_of_ne wellFormed' changed
    rw [shows, IntegerDomain.mem_eventsTo]
    by_cases negative : v.composed.scale < 0
    · have sides (s : Side) : v.side s = s.opposite := by
        rw [← side_composed invertible, Affine.side, if_pos negative]
      have order {y z : Int} : v.eval y < v.eval z ↔ z < y := by
        rw [eval_lt_eval_iff]
        omega
      cases event <;> simp only [facing, sides, Side.opposite, IntegerDomain.bound, Event.reversed,
        order, eval_eq_eval_iff invertible, ne_eq, reduceCtorEq, if_false]
      omega
    · have sides (s : Side) : v.side s = s := by
        rw [← side_composed invertible, Affine.side, if_neg negative]
      have order {y z : Int} : v.eval y < v.eval z ↔ y < z := by
        have := scale_composed_ne_zero invertible
        rw [eval_lt_eval_iff]
        omega
      cases event <;> simp only [facing, sides, IntegerDomain.bound, order,
        eval_eq_eval_iff invertible, ne_eq, if_true]
      omega

namespace WatchLists

variable {registrations : List (PropagatorId × Watch)} {w : WatchLists} {p : PropagatorId}
  {u : Watched} {event : Event}

/-- The watch lists after some registrations. -/
def registered (registrations : List (PropagatorId × Watch)) : WatchLists :=
  registrations.foldl (fun w r => w.register r.1 r.2) .empty

theorem mem_affected_foldl :
    p ∈ (registrations.foldl (fun w r => w.register r.1 r.2) w).affected event u ↔
      p ∈ w.affected event u ∨ ∃ r ∈ registrations, r.1 = p ∧ r.2.Tells u event := by
  induction registrations generalizing w with
  | nil => simp
  | cons r registrations ih =>
    rw [List.foldl_cons, ih, mem_affected_register, List.exists_mem_cons_iff, or_assoc]
    simp only [and_comm, eq_comm]

/-- Who is affected is who has registered, in whatever order. -/
theorem mem_affected_registered :
    p ∈ (registered registrations).affected event u ↔
      ∃ r ∈ registrations, r.1 = p ∧ r.2.Tells u event := by
  have nobody : p ∉ empty.affected event u := by
    cases u <;> simp [affected, watchers, empty, Watchers.affected]
  rw [registered, mem_affected_foldl]
  simp [nobody]

/-- The propagator has registered for the events of the variable, and for nothing else that tells of
the domain underneath. -/
def Waits (w : WatchLists) (p : PropagatorId) (v : Variable) (events : EventSet) : Prop :=
  ∃ registrations, w = registered registrations ∧ (p, .variable v events) ∈ registrations ∧
    ∀ r ∈ registrations, r.1 = p → r.2 = .variable v events ∨
      ∀ event, ¬ r.2.Tells (.integer v.base) event

theorem Waits.mem_affected_iff {v : Variable} {events : EventSet} (h : w.Waits p v events)
    (event : Event) : p ∈ w.affected event (.integer v.base) ↔ v.facing event ∈ events := by
  obtain ⟨registrations, rfl, mem, only⟩ := h
  have tells : (Watch.variable v events).Tells (.integer v.base) event ↔
      v.facing event ∈ events := by
    simp [Watch.Tells, Variable.mem_watch_iff]
  rw [mem_affected_registered, ← tells]
  constructor
  · rintro ⟨r, mem, own, told⟩
    rcases only r mem own with same | silent
    · rwa [same] at told
    · exact absurd told (silent event)
  · intro watched
    exact ⟨_, mem, rfl, watched⟩

end WatchLists

/-- A change of the domains wakes those who wait for one of the events that it adds. -/
theorem Engine.woken_iff_reported {P : Type} [Propagator P] {e : Engine P} {d : Domains}
    {u : Watched} {reported : List Event} (closed : e.Closed)
    (pending : d.events = e.domains.events ++ reported.map fun event => (u, event)) :
    ∃ before after, e.notify = .ok before ∧ (e.withDomains d).notify = .ok after ∧
      ∀ p, after.agenda.isWaiting p = true ↔ before.agenda.isWaiting p = true ∨
        ∃ event ∈ reported, p ∈ e.watches.affected event u := by
  have closed' : (e.withDomains d).Closed := ⟨closed.agenda, closed.watches, closed.active⟩
  obtain ⟨first, notified, -⟩ := closed.exists_notify
  obtain ⟨second, notified', -⟩ := closed'.exists_notify
  obtain ⟨_, same, queued⟩ := notify_spec notified
  obtain rfl := congrArg Engine.agenda same
  obtain ⟨_, same', queued'⟩ := notify_spec notified'
  obtain rfl := congrArg Engine.agenda same'
  refine ⟨_, _, notified, notified', fun p => ?_⟩
  have news : (∃ w event, (w, event) ∈ d.events ∧ p ∈ e.watches.affected event w) ↔
      (∃ w event, (w, event) ∈ e.domains.events ∧ p ∈ e.watches.affected event w) ∨
        ∃ event ∈ reported, p ∈ e.watches.affected event u := by
    simp only [pending, List.mem_append, List.mem_map, or_and_right, exists_or]
    refine or_congr_right ⟨?_, ?_⟩
    · rintro ⟨_, _, ⟨_, mem, ⟨⟩⟩, waits⟩
      exact ⟨_, mem, waits⟩
    · rintro ⟨event, mem, waits⟩
      exact ⟨u, event, ⟨event, mem, rfl⟩, waits⟩
  rw [(queued closed.agenda.valid).2, (queued' closed'.agenda.valid).2]
  show _ ∨ (∃ w event, (w, event) ∈ d.events ∧ p ∈ e.watches.affected event w) ↔ _
  rw [news, or_assoc]
  rfl

/-- Who watches a view, and nothing else of its domain, is woken by a change of the domain exactly
if the change shows on the view as one of the watched events. -/
theorem Engine.woken_iff_shows {P : Type} [Propagator P] {e : Engine P} {v : Variable}
    {row : IntegerDomain} {s : Side} {value : Int} {d : Domains} {p : PropagatorId}
    {events : EventSet} (closed : e.Closed) (invertible : v.IsInvertible)
    (here : e.domains.integer v.base = .ok row) (wellFormed : row.WellFormed)
    (fits : ∀ s, v.Fits (row.bound s))
    (tightened : e.domains.tighten v.base s value = .ok (some d))
    (waits : e.watches.Waits p v events) :
    ∃ before after, e.notify = .ok before ∧ (e.withDomains d).notify = .ok after ∧
      (after.agenda.isWaiting p = true ↔ before.agenda.isWaiting p = true ∨
        ∃ event ∈ events, v.Shows e.domains d event) := by
  obtain ⟨reported, pending, shows⟩ := Variable.shows_iff invertible here wellFormed fits tightened
  obtain ⟨before, after, notified, notified', woken⟩ := woken_iff_reported closed pending
  have told := waits.mem_affected_iff
  refine ⟨before, after, notified, notified', (woken p).trans (or_congr_right ⟨?_, ?_⟩)⟩
  · rintro ⟨event, fresh, affected⟩
    exact ⟨v.facing event, (told event).1 affected, (shows _).2 (by simpa using fresh)⟩
  · rintro ⟨event, mem, shown⟩
    exact ⟨v.facing event, (shows event).1 shown, (told _).2 (by simpa using mem)⟩

/-! ## Views made step by step -/

/-- A view that is made step by step, without a factor or scale of zero, denotes the composed map of
its steps `x ↦ a * x + b` as long as no word overflows. Its bounds are the least and the greatest
image of the domain; setting a bound fails exactly if no value has an image on the kept side, and
then nothing changes, and keeps exactly those values otherwise; and a watcher of the view is woken
by a change of the domain exactly if a watched bound of the view moved, or the view became fixed. -/
theorem Expression.denotes_composed {P : Type} [Propagator P] {x : Expression} {v : Variable}
    (built : x.build = .ok v) (invertible : x.IsInvertible) {e : Engine P} {row : IntegerDomain}
    (here : e.domains.integer x.start.base = .ok row) (wellFormed : row.WellFormed) :
    (x.composed.scale ≠ 0 ∧ ∀ y, x.composed.eval y = x.eval y) ∧
    (∀ s, v.Fits (row.bound (v.side s)) → ∃ r, v.bound s e.domains = .ok r ∧
      (∃ y, row.Admits y ∧ x.composed.eval y = r) ∧
      ∀ y, row.Admits y → s.Keeps r (x.composed.eval y)) ∧
    (∀ s value, v.Reverts s value →
      (e.change (v.setBound s value) = .ok (.error .emptyDomain, e) ↔
        ∀ y, row.Admits y → ¬ s.Keeps value (x.composed.eval y)) ∧
      ((∃ y, row.Admits y ∧ s.Keeps value (x.composed.eval y)) →
        ∃ d new, e.change (v.setBound s value) = .ok (.ok (), e.withDomains d) ∧
          (∀ z, d.integer z = if x.start.base = z then .ok new else e.domains.integer z) ∧
          (∀ i, d.interval i = e.domains.interval i) ∧
          ∀ y, new.Admits y ↔ row.Admits y ∧ s.Keeps value (x.composed.eval y))) ∧
    (e.Closed → (∀ s, v.Fits (row.bound s)) → ∀ s value d,
      e.domains.tighten x.start.base s value = .ok (some d) →
      ∀ p events, e.watches.Waits p v events →
        ∃ before after, e.notify = .ok before ∧ (e.withDomains d).notify = .ok after ∧
          (after.agenda.isWaiting p = true ↔ before.agenda.isWaiting p = true ∨
            ∃ event ∈ events, v.Shows e.domains d event)) := by
  obtain ⟨map, steps⟩ := composed_of_build built
  have kept := steps invertible
  rw [← base_of_build built] at here ⊢
  rw [← map]
  refine ⟨⟨Variable.scale_composed_ne_zero kept, fun y => ?_⟩, fun s fits => ?_,
    fun s value reverts => ?_, fun closed fits s value d tightened p events => ?_⟩
  · rw [Variable.eval_composed, eval_of_build built]
  · simpa only [Variable.eval_composed] using Variable.image_of_bound here wellFormed fits
  · simpa only [Variable.eval_composed] using
      Variable.change_filters here wellFormed kept reverts
  · exact Engine.woken_iff_shows closed kept here wellFormed fits tightened

namespace Stacked

/-- Twice reversed: `6 * x - 10`. -/
def twice : Expression := ⟨.plain ⟨0⟩, [.layer (-2) 3, .layer 3 1, .factor (-1)]⟩

/-- The view, in two layers. -/
def view : Variable := .affine (.affine (.plain ⟨0⟩) ⟨-2, 3⟩) ⟨-3, -1⟩

/-- It waits for the view to rise or to become fixed. -/
def waker : Blueprint Rule :=
  ⟨[.variable view [.lowerBound, .assign]], [], fun _ _ => .script ⟨.high, [[]], 0⟩, fun _ => []⟩

/-- The propagator has been added. -/
def installed : Engine Rule := .left (SelfWoken.start.install waker)

/-- It has been run. -/
def rested : Engine Rule := .left (installed.loop 2)

/-- The values of the domain from three on. -/
def raised : Domains := ((rested.domains.tighten ⟨0⟩ .lower 3).toOption.join).getD .empty

theorem closed : rested.Closed := by
  have row : (⟨0, 9⟩ : IntegerDomain).WellFormed := ⟨by decide, by decide, by decide⟩
  have made : SelfWoken.start.install waker = .ok (⟨0⟩, installed) := rfl
  have ran : installed.loop 2 = .ok (.ok (), rested) := rfl
  exact Engine.Accessible.closed
    (.moves (.moves (.moves .empty (.newInteger row)) (.install made)) (.propagate ran))

end Stacked

open Stacked in
theorem Expression.denotes_composed_stacked : twice.build = .ok view ∧ rested.Closed ∧
    (∃ r, view.bound .upper rested.domains = .ok r ∧
      ∀ y, (⟨0, 9⟩ : IntegerDomain).Admits y → twice.composed.eval y ≤ r) ∧
    (∃ d new, rested.change (view.setBound .lower 3) = .ok (.ok (), rested.withDomains d) ∧
      d.integer ⟨0⟩ = .ok new ∧ ∀ y, new.Admits y ↔
        (⟨0, 9⟩ : IntegerDomain).Admits y ∧ 3 ≤ twice.composed.eval y) ∧
    ∃ after, (rested.withDomains raised).notify = .ok after ∧
      after.agenda.isWaiting ⟨0⟩ = true := by
  have built : twice.build = .ok view := rfl
  have here : rested.domains.integer twice.start.base = .ok ⟨0, 9⟩ := rfl
  have fits (s : Side) : view.Fits ((⟨0, 9⟩ : IntegerDomain).bound s) := by
    cases s <;> decide
  obtain ⟨-, reads, sets, wakes⟩ := denotes_composed built (by decide) here
    ⟨by decide, by decide, by decide⟩
  obtain ⟨r, bound, -, greatest⟩ := reads .upper (fits _)
  obtain ⟨d, new, changed, rows, -, admits⟩ := (sets .lower 3 (by decide)).2
    ⟨9, ⟨by decide, by decide⟩, show (3 : Int) ≤ twice.composed.eval 9 by decide⟩
  obtain ⟨before, after, -, notified, waits⟩ := wakes closed fits .lower 3 raised rfl ⟨0⟩
    [.lowerBound, .assign] ⟨[_], rfl, List.mem_cons_self, by simp⟩
  have rises : view.Shows rested.domains raised .lowerBound :=
    ⟨-10, 8, rfl, rfl, by decide⟩
  exact ⟨built, closed, ⟨r, bound, greatest⟩, ⟨d, new, changed, rows ⟨0⟩, admits⟩, after, notified,
    waits.2 (.inr ⟨.lowerBound, List.mem_cons_self, rises⟩)⟩

end Scheduling
