import Scheduling.Proofs.Denotation

/-!
# What an update of an interval reports

An update moves up to six bounds and the presence of an interval at once. It reports the presence if
that has changed and, unless the interval is absent afterwards, whether a minimum rose, whether a
maximum fell, and whether the interval became fixed. Nothing else is reported, and every change
shows as one of the first three. An interval that becomes absent is fixed from then on, but this is
reported as its presence only: who waits for it to become fixed is not woken.

Results:
* `Interval.Shows`: the events as which a change shows.
* `Interval.mem_eventsTo_iff`: these are reported.
* `Interval.ne_iff_exists_shows`: a change shows as an event of a bound or of the presence.
* `Engine.woken_iff_interval_shows`: who has registered for events of an interval is woken by an
  update exactly if it shows as one of them.
* `Engine.absence_wakes_no_assign`: an interval becomes fixed, and who waits for that is not woken.
-/

namespace Scheduling

namespace Interval

variable {v w : Interval} {u : Update}

/-- The change shows as the event: the presence is another one, or the interval is not absent and a
minimum rose, a maximum fell, or it became fixed. -/
def Shows (v w : Interval) : Event → Prop
  | .presence => v.presence ≠ w.presence
  | .lowerBound => w.isAbsent = false ∧
      (v.startMin < w.startMin ∨ v.endMin < w.endMin ∨ v.lengthMin < w.lengthMin)
  | .upperBound => w.isAbsent = false ∧
      (w.startMax < v.startMax ∨ w.endMax < v.endMax ∨ w.lengthMax < v.lengthMax)
  | .assign => w.isAbsent = false ∧ v.isFixed = false ∧ w.isFixed = true

/-- Exactly the events that show are reported. -/
theorem mem_eventsTo_iff {event : Event} : event ∈ v.eventsTo w ↔ v.Shows w event := by
  unfold eventsTo
  by_cases absent : w.isAbsent = true
  · cases event <;> simp [Shows, absent]
  · simp only [Bool.not_eq_true] at absent
    cases event <;>
      simp [Shows, absent, Bounds.raisedFrom, Bounds.loweredFrom, or_assoc, and_comm]

theorem not_shows_self (v : Interval) (event : Event) : ¬ v.Shows v event := by
  cases event <;> simp [Shows]

theorem eventsTo_self (v : Interval) : v.eventsTo v = [] :=
  List.eq_nil_iff_forall_not_mem.2 fun event mem =>
    v.not_shows_self event (mem_eventsTo_iff.1 mem)

/-- Who waits for all bounds and the presence misses no change. -/
theorem ne_iff_exists_shows (wellFormed : v.WellFormed) (updated : v.update? u = some w) :
    w ≠ v ↔ ∃ event ∈ EventSet.anyInterval, v.Shows w event := by
  constructor
  · intro changed
    obtain ⟨event, reported, mem⟩ := exists_event_of_update? wellFormed updated changed
    exact ⟨event, mem, mem_eventsTo_iff.1 reported⟩
  · rintro ⟨event, -, shows⟩ rfl
    exact not_shows_self _ event shows

end Interval

/-- What an update of an interval adds to the pending events. -/
theorem Domains.events_of_update {d d' : Domains} {i : IntervalId} {u : Update}
    (updated : d.update i u = .ok (some d')) :
    ∃ v w, d.interval i = .ok v ∧ d'.interval i = .ok w ∧ v.update? u = some w ∧
      d'.events = d.events ++ (v.eventsTo w).map fun event => (.interval i, event) := by
  obtain ⟨v, w, here, after, rows, -⟩ := interval_of_update updated
  obtain ⟨v', w', here', after', cases⟩ := update_cases updated
  obtain rfl := Except.ok.inj (here.symm.trans here')
  obtain rfl := Option.some.inj (after.symm.trans after')
  refine ⟨v, w, here, by rw [rows, if_pos rfl], after, ?_⟩
  rcases cases with ⟨rfl, rfl⟩ | ⟨-, rfl⟩
  · rw [Interval.eventsTo_self, List.map_nil, List.append_nil]
  · rfl

/-- Who is affected by an event of an interval is who has registered for it. -/
theorem WatchLists.mem_affected_registered_interval
    {registrations : List (PropagatorId × Watch)} {p : PropagatorId} {i : IntervalId}
    {event : Event} :
    p ∈ (registered registrations).affected event (.interval i) ↔
      ∃ events, (p, .interval i events) ∈ registrations ∧ event ∈ events := by
  rw [mem_affected_registered]
  constructor
  · rintro ⟨⟨q, ⟨x, events⟩ | ⟨j, events⟩⟩, mem, rfl, told⟩
    · simp [Watch.Tells] at told
    · obtain ⟨⟨⟩, mem'⟩ := told
      exact ⟨events, mem, mem'⟩
  · rintro ⟨events, mem, mem'⟩
    exact ⟨_, mem, rfl, rfl, mem'⟩

/-- An update of an interval changes it exactly if it shows as an event of a bound or of the
presence. Whatever has been registered by whomever, in whatever order, a propagator is woken by the
update exactly if it has registered for an event of the interval as which the update shows. The
engines that operations lead to are closed, and their intervals are well-formed. -/
theorem Engine.woken_iff_interval_shows {P : Type} [Propagator P] {e : Engine P}
    {registrations : List (PropagatorId × Watch)} {i : IntervalId} {v : Interval} {u : Update}
    {d : Domains} (closed : e.Closed) (registered : e.watches = .registered registrations)
    (here : e.domains.interval i = .ok v) (wellFormed : v.WellFormed)
    (updated : e.domains.update i u = .ok (some d)) :
    ∃ w before after, d.interval i = .ok w ∧
      (w ≠ v ↔ ∃ event ∈ EventSet.anyInterval, v.Shows w event) ∧
      e.notify = .ok before ∧ (e.withDomains d).notify = .ok after ∧
      ∀ p, after.agenda.isWaiting p = true ↔ before.agenda.isWaiting p = true ∨
        ∃ events, (p, .interval i events) ∈ registrations ∧ ∃ event ∈ events, v.Shows w event := by
  obtain ⟨_, w, here', there, after, pending⟩ := Domains.events_of_update updated
  obtain rfl := Except.ok.inj (here.symm.trans here')
  obtain ⟨before, after, notified, notified', woken⟩ := woken_iff_reported closed pending
  refine ⟨w, before, after, there, Interval.ne_iff_exists_shows wellFormed ‹_›, notified, notified',
    fun p => (woken p).trans (or_congr_right ?_)⟩
  simp only [registered, WatchLists.mem_affected_registered_interval, Interval.mem_eventsTo_iff]
  constructor
  · rintro ⟨event, shows, events, mem, mem'⟩
    exact ⟨events, mem, event, mem', shows⟩
  · rintro ⟨events, mem, event, mem', shows⟩
    exact ⟨event, shows, events, mem, mem'⟩

namespace Departing

/-- It waits for the interval to become fixed. -/
def waker : Blueprint Rule :=
  ⟨[.interval ⟨0⟩ [.assign]], [], fun _ _ => .script ⟨.high, [[]], 0⟩, fun _ => []⟩

/-- The bounds of an interval of length two that starts by ten. -/
def bounds : Bounds := ⟨0, 10, 2, 12, 2, 2⟩

/-- An interval of which it is open whether it takes place. -/
def start : Engine Rule := .left ((.empty : Engine Rule).newInterval bounds .optional)

/-- The propagator has been added. -/
def installed : Engine Rule := .left (start.install waker)

/-- It has been run. -/
def rested : Engine Rule := .left (installed.loop 2)

/-- The domains after an update of the interval. -/
def updated (u : Update) : Domains := ((rested.domains.update ⟨0⟩ u).toOption.join).getD .empty

theorem accessible : rested.Accessible := by
  have within : bounds.WithinHorizon := by constructor <;> decide
  have created : (.empty : Engine Rule).newInterval bounds .optional = .ok (⟨0⟩, start) := rfl
  have made : start.install waker = .ok (⟨0⟩, installed) := rfl
  have ran : installed.loop 2 = .ok (.ok (), rested) := rfl
  exact .moves (.moves (.moves .empty (.newInterval within created)) (.install made))
    (.propagate ran)

end Departing

open Departing in
/-- The interval is moved to its latest start, and who waits for it to become fixed is woken. -/
theorem Engine.woken_iff_interval_shows_fixed : rested.Closed ∧
    rested.watches = .registered [(⟨0⟩, .interval ⟨0⟩ [.assign])] ∧
    (⟨bounds, .optional⟩ : Interval).WellFormed ∧
    ∃ after, (rested.withDomains (updated (.bound .startMin 10))).notify = .ok after ∧
      after.agenda.isWaiting ⟨0⟩ = true := by
  have closed := accessible.closed
  have registered : rested.watches = .registered [(⟨0⟩, .interval ⟨0⟩ [.assign])] := by decide
  have here : rested.domains.interval ⟨0⟩ = .ok ⟨bounds, .optional⟩ := rfl
  have wellFormed := accessible.order.store.wellFormed_now.interval _ _ here
  obtain ⟨w, before, after, there, -, -, notified, woken⟩ := woken_iff_interval_shows closed
    registered here wellFormed (d := updated (.bound .startMin 10)) (u := .bound .startMin 10) rfl
  obtain rfl : w = ⟨⟨10, 10, 12, 12, 2, 2⟩, .optional⟩ := (Except.ok.inj there).symm
  have shows : (⟨bounds, .optional⟩ : Interval).Shows ⟨⟨10, 10, 12, 12, 2, 2⟩, .optional⟩ .assign :=
    ⟨rfl, rfl, rfl⟩
  exact ⟨closed, registered, wellFormed, after, notified,
    (woken ⟨0⟩).2 (.inr ⟨[.assign], List.mem_cons_self, .assign, List.mem_cons_self, shows⟩)⟩

open Departing in
/-- The interval becomes absent, and thus fixed, but who waits for that is not woken. -/
theorem Engine.absence_wakes_no_assign : rested.Accessible ∧
    rested.watches = .registered [(⟨0⟩, .interval ⟨0⟩ [.assign])] ∧
    ∃ v w after, rested.domains.interval ⟨0⟩ = .ok v ∧
      rested.domains.update ⟨0⟩ .absent = .ok (some (updated .absent)) ∧
      (updated .absent).interval ⟨0⟩ = .ok w ∧ v.isFixed = false ∧ w.isFixed = true ∧
      (rested.withDomains (updated .absent)).notify = .ok after ∧
      after.agenda.isWaiting ⟨0⟩ = false := by
  exact ⟨accessible, by decide, ⟨bounds, .optional⟩, ⟨bounds, .absent⟩, _, rfl, rfl, rfl, by decide,
    by decide, rfl, by decide⟩

end Scheduling
