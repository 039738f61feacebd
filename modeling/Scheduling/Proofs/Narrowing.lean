import Scheduling.Proofs.Backtracking
import Scheduling.Proofs.Interval.Consistency
import Scheduling.Proofs.Views

/-!
# Narrowing domains

Domains only shrink until the search returns to an earlier checkpoint, and every row that shrinks is
reported by an event. All writes to domains are judged by the relation `Domains.Evolves`, which says
this and that a write leaves the past alone.

Results:
* `Domains.Narrows.admits`: narrower domains admit no further assignment.
* `Domains.evolves_of_tighten`, `Domains.evolves_of_update`, `Domains.evolves_of_setBound`,
  `Domains.evolves_of_assign`: every write is an evolution of well-formed domains.
* `Domains.Evolves.trans`: evolutions compose.
-/

namespace Scheduling

namespace IntegerDomain

/-- No value is added. -/
structure Narrows (old new : IntegerDomain) : Prop where
  lower_le : old.lower ≤ new.lower
  upper_le : new.upper ≤ old.upper

theorem Narrows.refl (d : IntegerDomain) : d.Narrows d := ⟨Int.le_refl _, Int.le_refl _⟩

theorem Narrows.trans {a b c : IntegerDomain} (h : a.Narrows b) (h' : b.Narrows c) :
    a.Narrows c :=
  ⟨Int.le_trans h.lower_le h'.lower_le, Int.le_trans h'.upper_le h.upper_le⟩

theorem Narrows.admits {old new : IntegerDomain} (h : old.Narrows new) {value : Int}
    (admits : new.Admits value) : old.Admits value :=
  ⟨Int.le_trans h.lower_le admits.1, Int.le_trans admits.2 h.upper_le⟩

theorem narrows_of_update? {d new : IntegerDomain} {side : Side} {value : Int} (h : d.WellFormed)
    (updated : d.update? side value = some new) : new.WellFormed ∧ d.Narrows new := by
  obtain ⟨le, ⟨l1, l2⟩, u1, u2⟩ := h
  cases side <;> simp only [update?] at updated <;> split at updated
  · cases updated
    exact ⟨⟨le, ⟨l1, l2⟩, u1, u2⟩, .refl _⟩
  · split at updated <;> cases updated
    exact ⟨⟨by assumption, ⟨by simp only; omega, by simp only; omega⟩, u1, u2⟩,
      by simp only; omega, Int.le_refl _⟩
  · cases updated
    exact ⟨⟨le, ⟨l1, l2⟩, u1, u2⟩, .refl _⟩
  · split at updated <;> cases updated
    exact ⟨⟨by assumption, ⟨l1, l2⟩, by simp only; omega, by simp only; omega⟩,
      Int.le_refl _, by simp only; omega⟩

/-- A change is reported by an event of the side that moved, and by one more if it leaves a single
value. -/
theorem mem_eventsTo_of_ne {old new : IntegerDomain} (h : old.Narrows new) (changed : new ≠ old) :
    (.lowerBound ∈ old.eventsTo new ∨ .upperBound ∈ old.eventsTo new) ∧
      (new.lower = new.upper → .assign ∈ old.eventsTo new) := by
  obtain ⟨l, u⟩ := old
  obtain ⟨l', u'⟩ := new
  obtain ⟨h1, h2⟩ := h
  simp only [ne_eq, mk.injEq, eventsTo] at *
  refine ⟨?_, fun fixed => by simp [fixed]⟩
  by_cases raised : l < l'
  · simp [raised]
  · have lowered : u' < u := by omega
    simp [lowered]

end IntegerDomain

namespace Domains

/-- Every row is well-formed. -/
structure WellFormed (d : Domains) : Prop where
  integer : ∀ x row, d.integer x = .ok row → row.WellFormed
  interval : ∀ i row, d.interval i = .ok row → row.WellFormed

/-- All rows are kept, and none of them gets a further value. -/
structure Narrows (d d' : Domains) : Prop where
  integer : ∀ x row, d.integer x = .ok row → ∃ row', d'.integer x = .ok row' ∧ row.Narrows row'
  interval : ∀ i row, d.interval i = .ok row → ∃ row', d'.interval i = .ok row' ∧ row.Narrows row'

namespace Narrows

theorem refl (d : Domains) : d.Narrows d :=
  ⟨fun _ row h => ⟨row, h, .refl _⟩, fun _ row h => ⟨row, h, .refl _⟩⟩

theorem trans {a b c : Domains} (h : a.Narrows b) (h' : b.Narrows c) : a.Narrows c := by
  constructor
  · intro x row found
    obtain ⟨row', found', narrows⟩ := h.integer x row found
    obtain ⟨row'', found'', narrows'⟩ := h'.integer x row' found'
    exact ⟨row'', found'', narrows.trans narrows'⟩
  · intro i row found
    obtain ⟨row', found', narrows⟩ := h.interval i row found
    obtain ⟨row'', found'', narrows'⟩ := h'.interval i row' found'
    exact ⟨row'', found'', narrows.trans narrows'⟩

/-- Narrower domains admit no further assignment. -/
theorem admits {d d' : Domains} (h : d.Narrows d') {a : Assignment} (admits : d'.Admits a) :
    d.Admits a := by
  constructor
  · intro x row found
    obtain ⟨row', found', narrows⟩ := h.integer x row found
    exact narrows.admits (admits.integer x row' found')
  · intro i row found
    obtain ⟨row', found', narrows⟩ := h.interval i row found
    exact narrows.admits (admits.interval i row' found')

end Narrows

theorem narrows_dropEvents (d : Domains) : d.Narrows d.dropEvents :=
  ⟨(Narrows.refl d).integer, (Narrows.refl d).interval⟩

/-- The events name every row that is not the same in both domains: the side of an integer that
moved, a single value that is left, and what happened to an interval. -/
structure Reports (d d' : Domains) (events : List (Watched × Event)) : Prop where
  bounds : ∀ x row row', d.integer x = .ok row → d'.integer x = .ok row' → row' ≠ row →
    (.integer x, .lowerBound) ∈ events ∨ (.integer x, .upperBound) ∈ events
  assign : ∀ x row row', d.integer x = .ok row → d'.integer x = .ok row' → row' ≠ row →
    row'.lower = row'.upper → (.integer x, .assign) ∈ events
  interval : ∀ i row row', d.interval i = .ok row → d'.interval i = .ok row' → row' ≠ row →
    ∃ e ∈ EventSet.anyInterval, (.interval i, e) ∈ events

theorem Reports.refl (d : Domains) : d.Reports d [] := by
  constructor
  · intro x row row' h h' changed
    simp_all
  · intro x row row' h h' changed
    simp_all
  · intro i row row' h h' changed
    simp_all

theorem Reports.trans {a b c : Domains} {first second : List (Watched × Event)} (h : a.Reports b first)
    (h' : b.Reports c second) (kept : a.Narrows b) : a.Reports c (first ++ second) := by
  constructor
  · intro x row row'' found found'' changed
    obtain ⟨row', found', -⟩ := kept.integer x row found
    by_cases same : row' = row
    · subst same
      have := h'.bounds x _ row'' found' found'' changed
      simp only [List.mem_append]
      tauto
    · have := h.bounds x row row' found found' same
      simp only [List.mem_append]
      tauto
  · intro x row row'' found found'' changed fixed
    obtain ⟨row', found', -⟩ := kept.integer x row found
    by_cases same : row'' = row'
    · subst same
      exact List.mem_append_left _ (h.assign x row _ found found' changed fixed)
    · exact List.mem_append_right _ (h'.assign x row' row'' found' found'' same fixed)
  · intro i row row'' found found'' changed
    obtain ⟨row', found', -⟩ := kept.interval i row found
    by_cases same : row' = row
    · subst same
      obtain ⟨e, event, mem⟩ := h'.interval i _ row'' found' found'' changed
      exact ⟨e, event, List.mem_append_right _ mem⟩
    · obtain ⟨e, event, mem⟩ := h.interval i row row' found found' same
      exact ⟨e, event, List.mem_append_left _ mem⟩

/-- What a sequence of writes does: rows shrink, every change is reported, and the past stays. -/
structure Evolves (d d' : Domains) : Prop where
  narrows : d.Narrows d'
  depth : d'.depth = d.depth
  past : ∀ k, k < d.depth → d'.past k = d.past k
  recorded : d.Recorded → d'.Recorded
  reported : ∃ events, d'.events = d.events ++ events ∧ d.Reports d' events

namespace Evolves

theorem refl (d : Domains) : d.Evolves d :=
  ⟨.refl d, rfl, fun _ _ => rfl, id, [], by simp, .refl d⟩

theorem trans {a b c : Domains} (h : a.Evolves b) (h' : b.Evolves c) : a.Evolves c := by
  refine ⟨h.narrows.trans h'.narrows, h'.depth.trans h.depth, fun k below => ?_,
    fun recorded => h'.recorded (h.recorded recorded), ?_⟩
  · rw [h'.past k (by rw [h.depth]; exact below), h.past k below]
  · obtain ⟨first, events, reports⟩ := h.reported
    obtain ⟨second, events', reports'⟩ := h'.reported
    exact ⟨first ++ second, by rw [events', events, List.append_assoc],
      reports.trans reports' h.narrows⟩

end Evolves

/-! ## Writes -/

theorem integer_set_commit {d : Domains} {x : IntegerId} {old : IntegerDomain}
    (h : d.integer x = .ok old) (new : IntegerDomain) (events : List Event) (y : IntegerId) :
    (({ d with integers := d.integers.set x.index new } : Domains).commit (.integer x old)
      (.integer x) events).integer y = if x = y then .ok new else d.integer y := by
  have inside := Table.lt_size_of_get? (integer_eq_ok_iff.1 h)
  by_cases same : x = y
  · subst same
    rw [if_pos rfl, integer_eq_ok_iff]
    simp [commit, Table.get?_set, inside]
  · have other : x.index ≠ y.index := fun eq => same (by cases x; cases y; simp_all)
    rw [if_neg same]
    simp only [integer, commit, Table.read, Table.get?_set, other, if_false, Table.size_set]

theorem interval_set_commit {d : Domains} {i : IntervalId} {old : Interval}
    (h : d.interval i = .ok old) (new : Interval) (events : List Event) (j : IntervalId) :
    (({ d with intervals := d.intervals.set i.index new } : Domains).commit (.interval i old)
      (.interval i) events).interval j = if i = j then .ok new else d.interval j := by
  have inside := Table.lt_size_of_get? (interval_eq_ok_iff.1 h)
  by_cases same : i = j
  · subst same
    rw [if_pos rfl, interval_eq_ok_iff]
    simp [commit, Table.get?_set, inside]
  · have other : i.index ≠ j.index := fun eq => same (by cases i; cases j; simp_all)
    rw [if_neg same]
    simp only [interval, commit, Table.read, Table.get?_set, other, if_false, Table.size_set]

/-- Tightening an integer variable does nothing, or writes and records its new row. -/
theorem tighten_cases {d d' : Domains} {x : IntegerId} {side : Side} {value : Int}
    (h : d.tighten x side value = .ok (some d')) :
    ∃ old new, d.integer x = .ok old ∧ old.update? side value = some new ∧
      (new = old ∧ d' = d ∨
        new ≠ old ∧ d' = ({ d with integers := d.integers.set x.index new } : Domains).commit
          (.integer x old) (.integer x) (old.eventsTo new)) := by
  unfold tighten at h
  cases here : d.integer x with
  | error fault => simp [here, bind, Except.bind] at h
  | ok old =>
    cases after : old.update? side value with
    | none => simp [here, after, bind, Except.bind, pure, Except.pure] at h
    | some new =>
      simp only [here, after, bind, Except.bind, pure, Except.pure] at h
      refine ⟨old, new, rfl, after, ?_⟩
      split at h
      · rename_i same
        cases h
        exact .inl ⟨same, rfl⟩
      · rename_i changed
        cases h
        exact .inr ⟨changed, rfl⟩

/-- An update of an interval does nothing, or writes and records its new row. -/
theorem update_cases {d d' : Domains} {i : IntervalId} {u : Update}
    (h : d.update i u = .ok (some d')) :
    ∃ old new, d.interval i = .ok old ∧ old.update? u = some new ∧
      (new = old ∧ d' = d ∨
        new ≠ old ∧ d' = ({ d with intervals := d.intervals.set i.index new } : Domains).commit
          (.interval i old) (.interval i) (old.eventsTo new)) := by
  unfold update at h
  cases here : d.interval i with
  | error fault => simp [here, bind, Except.bind] at h
  | ok old =>
    cases after : old.update? u with
    | none => simp [here, after, bind, Except.bind, pure, Except.pure] at h
    | some new =>
      simp only [here, after, bind, Except.bind, pure, Except.pure] at h
      refine ⟨old, new, rfl, after, ?_⟩
      split at h
      · rename_i same
        cases h
        exact .inl ⟨same, rfl⟩
      · rename_i changed
        cases h
        exact .inr ⟨changed, rfl⟩

/-- What tightening an integer variable does to the rows. -/
theorem integer_of_tighten {d d' : Domains} {x : IntegerId} {side : Side} {value : Int}
    (h : d.tighten x side value = .ok (some d')) :
    ∃ old new, d.integer x = .ok old ∧ old.update? side value = some new ∧
      (∀ y, d'.integer y = if x = y then .ok new else d.integer y) ∧
      ∀ i, d'.interval i = d.interval i := by
  obtain ⟨old, new, here, updated, ⟨rfl, rfl⟩ | ⟨-, rfl⟩⟩ := tighten_cases h
  · refine ⟨new, new, here, updated, fun y => ?_, fun _ => rfl⟩
    split
    · rename_i same
      rw [← same, here]
    · rfl
  · exact ⟨old, new, here, updated, integer_set_commit here new _, fun _ => rfl⟩

/-- What an update of an interval does to the rows. -/
theorem interval_of_update {d d' : Domains} {i : IntervalId} {u : Update}
    (h : d.update i u = .ok (some d')) :
    ∃ old new, d.interval i = .ok old ∧ old.update? u = some new ∧
      (∀ j, d'.interval j = if i = j then .ok new else d.interval j) ∧
      ∀ x, d'.integer x = d.integer x := by
  obtain ⟨old, new, here, updated, ⟨rfl, rfl⟩ | ⟨-, rfl⟩⟩ := update_cases h
  · refine ⟨new, new, here, updated, fun j => ?_, fun _ => rfl⟩
    split
    · rename_i same
      rw [← same, here]
    · rfl
  · exact ⟨old, new, here, updated, interval_set_commit here new _, fun _ => rfl⟩

/-! ### One integer variable -/

section Integer

variable {d d' : Domains} {x : IntegerId} {old new : IntegerDomain} (here : d.integer x = .ok old)
  (integers : ∀ y, d'.integer y = if x = y then .ok new else d.integer y)
  (intervals : ∀ i, d'.interval i = d.interval i)

include integers intervals in
theorem wellFormed_of_integer (wellFormed : d.WellFormed) (written : new.WellFormed) :
    d'.WellFormed := by
  refine ⟨fun y row found => ?_, fun i row found => ?_⟩
  · rw [integers] at found
    split at found
    · cases found
      exact written
    · exact wellFormed.integer y row found
  · exact wellFormed.interval i row (by rw [← intervals, found])

include here integers intervals in
theorem narrows_of_integer (narrows : old.Narrows new) : d.Narrows d' := by
  refine ⟨fun y row found => ?_, fun i row found => ⟨row, by rw [intervals, found], .refl _⟩⟩
  rw [integers]
  split
  · rename_i same
    subst same
    rw [here] at found
    cases found
    exact ⟨new, rfl, narrows⟩
  · exact ⟨row, found, .refl _⟩

include integers intervals in
/-- The events that are recorded with a narrower row name the variable, which is the only one that
changes. -/
theorem reports_of_integer (narrows : old.Narrows new) (changed : new ≠ old) :
    d.Reports d' ((old.eventsTo new).map fun e => (.integer x, e)) := by
  obtain ⟨moved, assigned⟩ := IntegerDomain.mem_eventsTo_of_ne narrows changed
  have unchanged (y : IntegerId) (ne : x ≠ y) (row row' : IntegerDomain)
      (found : d.integer y = .ok row) (found' : d'.integer y = .ok row') : row' = row := by
    rw [integers, if_neg ne, found] at found'
    exact (Except.ok.inj found').symm
  refine ⟨fun y row row' found found' differ => ?_, fun y row row' found found' differ => ?_,
    fun i row row' found found' differ => absurd ?_ differ⟩
  · by_cases same : x = y
    · subst same
      simpa using moved
    · exact absurd (unchanged y same row row' found found') differ
  · by_cases same : x = y
    · subst same
      rw [integers, if_pos rfl] at found'
      cases found'
      simpa using assigned
    · exact absurd (unchanged y same row row' found found') differ
  · rw [intervals, found] at found'
    exact (Except.ok.inj found').symm

include here in
theorem recorded_commit_integer (recorded : d.Recorded) (new : IntegerDomain) (v : Watched)
    (events : List Event) :
    (({ d with integers := d.integers.set x.index new } : Domains).commit (.integer x old) v
      events).Recorded := by
  intro change mem
  simp only [commit, Trail.toList_push, List.mem_append, List.mem_singleton] at mem
  rcases mem with mem | rfl
  · have inside := recorded change mem
    cases change <;> simpa [commit] using inside
  · simpa [commit] using Table.lt_size_of_get? (integer_eq_ok_iff.1 here)

end Integer

theorem evolves_of_tighten {d d' : Domains} {x : IntegerId} {side : Side} {value : Int}
    (wellFormed : d.WellFormed) (h : d.tighten x side value = .ok (some d')) :
    d'.WellFormed ∧ d.Evolves d' := by
  obtain ⟨old, new, here, updated, ⟨-, rfl⟩ | ⟨changed, rfl⟩⟩ := tighten_cases h
  · exact ⟨wellFormed, .refl _⟩
  · obtain ⟨written, narrows⟩ :=
      IntegerDomain.narrows_of_update? (wellFormed.integer x old here) updated
    have rows := integer_set_commit here new (old.eventsTo new)
    exact ⟨wellFormed_of_integer rows (fun _ => rfl) wellFormed written,
      narrows_of_integer here rows (fun _ => rfl) narrows, rfl,
      fun k below => past_commit_integer here _ _ below,
      fun recorded => recorded_commit_integer here recorded _ _ _,
      _, rfl, reports_of_integer rows (fun _ => rfl) narrows changed⟩

/-! ### One interval -/

section Interval

variable {d d' : Domains} {i : IntervalId} {old new : Interval} (here : d.interval i = .ok old)
  (intervals : ∀ j, d'.interval j = if i = j then .ok new else d.interval j)
  (integers : ∀ x, d'.integer x = d.integer x)

include intervals integers in
theorem wellFormed_of_interval (wellFormed : d.WellFormed) (written : new.WellFormed) :
    d'.WellFormed := by
  refine ⟨fun x row found => ?_, fun j row found => ?_⟩
  · exact wellFormed.integer x row (by rw [← integers, found])
  · rw [intervals] at found
    split at found
    · cases found
      exact written
    · exact wellFormed.interval j row found

include here intervals integers in
theorem narrows_of_interval (narrows : old.Narrows new) : d.Narrows d' := by
  refine ⟨fun x row found => ⟨row, by rw [integers, found], .refl _⟩, fun j row found => ?_⟩
  rw [intervals]
  split
  · rename_i same
    subst same
    rw [here] at found
    cases found
    exact ⟨new, rfl, narrows⟩
  · exact ⟨row, found, .refl _⟩

include intervals integers in
/-- The events name the interval, which is the only one that changes. -/
theorem reports_of_interval {events : List Event}
    (reported : ∃ e ∈ EventSet.anyInterval, e ∈ events) :
    d.Reports d' (events.map fun e => (.interval i, e)) := by
  have unchanged (x : IntegerId) (row row' : IntegerDomain) (found : d.integer x = .ok row)
      (found' : d'.integer x = .ok row') : row' = row := by
    rw [integers, found] at found'
    exact (Except.ok.inj found').symm
  refine ⟨fun x row row' found found' differ => absurd (unchanged x row row' found found') differ,
    fun x row row' found found' differ => absurd (unchanged x row row' found found') differ,
    fun j row row' found found' differ => ?_⟩
  rw [intervals] at found'
  split at found'
  · rename_i same
    subst same
    obtain ⟨e, any, event⟩ := reported
    exact ⟨e, any, List.mem_map.2 ⟨e, event, rfl⟩⟩
  · rw [found] at found'
    cases found'
    exact absurd rfl differ

include here in
theorem recorded_commit_interval (recorded : d.Recorded) (new : Interval) (v : Watched)
    (events : List Event) :
    (({ d with intervals := d.intervals.set i.index new } : Domains).commit (.interval i old) v
      events).Recorded := by
  intro change mem
  simp only [commit, Trail.toList_push, List.mem_append, List.mem_singleton] at mem
  rcases mem with mem | rfl
  · have inside := recorded change mem
    cases change <;> simpa [commit] using inside
  · simpa [commit] using Table.lt_size_of_get? (interval_eq_ok_iff.1 here)

end Interval

theorem evolves_of_update {d d' : Domains} {i : IntervalId} {u : Update}
    (wellFormed : d.WellFormed) (h : d.update i u = .ok (some d')) :
    d'.WellFormed ∧ d.Evolves d' := by
  obtain ⟨old, new, here, updated, ⟨-, rfl⟩ | ⟨changed, rfl⟩⟩ := update_cases h
  · exact ⟨wellFormed, .refl _⟩
  · have sound := wellFormed.interval i old here
    obtain ⟨written, narrows⟩ := Interval.narrows_of_update? sound updated
    obtain ⟨e, event, any⟩ := Interval.exists_event_of_update? sound updated changed
    have rows := interval_set_commit here new (old.eventsTo new)
    exact ⟨wellFormed_of_interval rows (fun _ => rfl) wellFormed written,
      narrows_of_interval here rows (fun _ => rfl) narrows, rfl,
      fun k below => past_commit_interval here _ _ below,
      fun recorded => recorded_commit_interval here recorded _ _ _,
      _, rfl, reports_of_interval rows (fun _ => rfl) ⟨e, any, event⟩⟩

/-! ### Variables and literals -/

theorem evolves_of_setBound {d d' : Domains} {v : Variable} {side : Side} {value : Int}
    (wellFormed : d.WellFormed) (h : v.setBound side value d = .ok (some d')) :
    d'.WellFormed ∧ d.Evolves d' := by
  rw [Variable.setBound_eq] at h
  cases mapped : v.invert side value with
  | error cause => simp [mapped, bind, Except.bind] at h
  | ok bound =>
    simp only [mapped, bind, Except.bind] at h
    exact evolves_of_tighten wellFormed h

theorem evolves_of_assign {d d' : Domains} {l : Literal} {value : Bool}
    (wellFormed : d.WellFormed) (h : l.assign value d = .ok (some d')) :
    d'.WellFormed ∧ d.Evolves d' := by
  unfold Literal.assign at h
  split at h <;> exact evolves_of_setBound wellFormed h

/-! ## New rows -/

/-- A new row leaves the others where they are. -/
theorem integer_addInteger {d : Domains} {x : IntegerId} {old : IntegerDomain}
    (found : d.integer x = .ok old) (row : IntegerDomain) :
    (d.addInteger row).integer x = .ok old := by
  have known := integer_eq_ok_iff.1 found
  have inside := Table.lt_size_of_get? known
  rw [integer_eq_ok_iff, addInteger, Table.get?_push, if_neg (Nat.ne_of_lt inside), known]

theorem interval_addInterval {d : Domains} {i : IntervalId} {old : Interval}
    (found : d.interval i = .ok old) (row : Interval) :
    (d.addInterval row).interval i = .ok old := by
  have known := interval_eq_ok_iff.1 found
  have inside := Table.lt_size_of_get? known
  rw [interval_eq_ok_iff, addInterval, Table.get?_push, if_neg (Nat.ne_of_lt inside), known]

theorem narrows_addInteger (d : Domains) (row : IntegerDomain) : d.Narrows (d.addInteger row) :=
  ⟨fun _ old found => ⟨old, integer_addInteger found row, .refl _⟩,
    fun _ old found => ⟨old, found, .refl _⟩⟩

theorem narrows_addInterval (d : Domains) (row : Interval) : d.Narrows (d.addInterval row) :=
  ⟨fun _ old found => ⟨old, found, .refl _⟩,
    fun _ old found => ⟨old, interval_addInterval found row, .refl _⟩⟩

/-- A new row is no change of the others. -/
theorem reports_addInteger (d : Domains) (row : IntegerDomain) :
    d.Reports (d.addInteger row) [] := by
  have same (x : IntegerId) (old old' : IntegerDomain) (found : d.integer x = .ok old)
      (found' : (d.addInteger row).integer x = .ok old') : old' = old := by
    rw [integer_addInteger found row] at found'
    cases found'
    rfl
  exact ⟨fun x old old' found found' differs => absurd (same x old old' found found') differs,
    fun x old old' found found' differs => absurd (same x old old' found found') differs,
    fun i old old' found found' differs => absurd (by
      rw [show (d.addInteger row).interval i = d.interval i from rfl, found] at found'
      cases found'
      rfl) differs⟩

theorem reports_addInterval (d : Domains) (row : Interval) : d.Reports (d.addInterval row) [] := by
  have same (i : IntervalId) (old old' : Interval) (found : d.interval i = .ok old)
      (found' : (d.addInterval row).interval i = .ok old') : old' = old := by
    rw [interval_addInterval found row] at found'
    cases found'
    rfl
  have others (x : IntegerId) (old old' : IntegerDomain) (found : d.integer x = .ok old)
      (found' : (d.addInterval row).integer x = .ok old') : old' = old := by
    rw [show (d.addInterval row).integer x = d.integer x from rfl, found] at found'
    cases found'
    rfl
  exact ⟨fun x old old' found found' differs => absurd (others x old old' found found') differs,
    fun x old old' found found' differs => absurd (others x old old' found found') differs,
    fun i old old' found found' differs => absurd (same i old old' found found') differs⟩

theorem wellFormed_addInteger {d : Domains} (h : d.WellFormed) {row : IntegerDomain}
    (added : row.WellFormed) : (d.addInteger row).WellFormed := by
  refine ⟨fun x old found => ?_, h.interval⟩
  rw [integer_eq_ok_iff, addInteger, Table.get?_push] at found
  split at found
  · cases found; exact added
  · exact h.integer x old (integer_eq_ok_iff.2 found)

theorem wellFormed_addInterval {d : Domains} (h : d.WellFormed) {row : Interval}
    (added : row.WellFormed) : (d.addInterval row).WellFormed := by
  refine ⟨h.integer, fun i old found => ?_⟩
  rw [interval_eq_ok_iff, addInterval, Table.get?_push] at found
  split at found
  · cases found; exact added
  · exact h.interval i old (interval_eq_ok_iff.2 found)

end Domains

end Scheduling
