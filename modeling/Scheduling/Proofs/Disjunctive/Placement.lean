import Scheduling.Proofs.Narrowing

/-!
# Placed intervals

An interval that is present and has a known start and end is placed. Once it is, it stays where it
is, and no interval is placed without an event that says so.

Results:
* `Domains.Places`, `Domains.Lacks`: the intervals that are placed, and those that are absent.
* `Domains.Places.mono`: a placed interval stays where it is.
* `Domains.Separated`: two intervals do not overlap, once both are placed.
* `Domains.separated_or_reported`: if they come to overlap, one of them has changed.
-/

namespace Scheduling

namespace Domains

/-- The interval is present, and its start and its end are known. -/
def Places (d : Domains) (i : IntervalId) (start stop : Int) : Prop :=
  ∃ v, d.interval i = .ok v ∧ v.isPresent = true ∧ v.startMin = start ∧ v.startMax = start ∧
    v.endMin = stop ∧ v.endMax = stop

/-- The interval is absent. -/
def Lacks (d : Domains) (i : IntervalId) : Prop :=
  ∃ v, d.interval i = .ok v ∧ v.isAbsent = true

variable {d d' : Domains} {i j : IntervalId} {start stop : Int}

theorem Places.mono (h : d.Places i start stop) (wellFormed' : d'.WellFormed)
    (narrows : d.Narrows d') : d'.Places i start stop := by
  obtain ⟨v, row, present, first, first', last, last'⟩ := h
  obtain ⟨v', row', narrower⟩ := narrows.interval i v row
  obtain ⟨t1, t2, t3, t4, -, -⟩ := narrower.tightens
  have settled := wellFormed'.interval i v' row'
  have := settled.start_le
  have := settled.end_le
  exact ⟨v', row', narrower.isPresent present, by omega, by omega, by omega, by omega⟩

theorem Lacks.mono (h : d.Lacks i) (narrows : d.Narrows d') : d'.Lacks i := by
  obtain ⟨v, row, absent⟩ := h
  obtain ⟨v', row', narrower⟩ := narrows.interval i v row
  exact ⟨v', row', narrower.isAbsent absent⟩

theorem Lacks.not_places (h : d.Lacks i) : ¬ d.Places i start stop := by
  rintro ⟨v, row, present, -⟩
  obtain ⟨v', row', absent⟩ := h
  rw [row] at row'
  cases row'
  simp only [Interval.isPresent, Interval.isAbsent, beq_iff_eq] at present absent
  simp [present] at absent

theorem Places.unique {start' stop' : Int} (h : d.Places i start stop)
    (h' : d.Places i start' stop') : start = start' ∧ stop = stop' := by
  obtain ⟨v, row, -, rfl, -, rfl, -⟩ := h
  obtain ⟨v', row', -, rfl, -, rfl, -⟩ := h'
  rw [row] at row'
  cases row'
  exact ⟨rfl, rfl⟩

/-- An absent interval is absent in every assignment within the domains. -/
theorem Admits.interval_eq_of_lacks {a : Assignment} (h : d.Admits a) (lacks : d.Lacks i) :
    a.interval i = .absent := by
  obtain ⟨v, row, absent⟩ := lacks
  have inside := h.interval i v row
  cases value : a.interval i with
  | absent => rfl
  | placed start length =>
    rw [value] at inside
    simp only [Interval.isAbsent, beq_iff_eq] at absent
    exact absurd absent inside.1

/-- A placed interval lies there in every assignment within the domains. -/
theorem Admits.interval_eq_of_places {a : Assignment} (h : d.Admits a)
    (placed : d.Places i start stop) : a.interval i = .placed start (stop - start) := by
  obtain ⟨v, row, present, rfl, first, rfl, last⟩ := placed
  have inside := h.interval i v row
  simp only [Interval.isPresent, beq_iff_eq] at present
  cases value : a.interval i with
  | absent =>
    rw [value] at inside
    exact absurd present inside
  | placed start length =>
    rw [value] at inside
    obtain ⟨a1, a2, a3, a4, -, -⟩ := inside.2
    rw [IntervalValue.placed.injEq]
    constructor <;> omega

/-- An interval that is placed was placed before, unless an event says that it changed. -/
theorem places_or_reported {events : List (Watched × Event)} (narrows : d.Narrows d')
    (reports : d.Reports d' events) (known : i.index < d.intervals.size)
    (h : d'.Places i start stop) :
    d.Places i start stop ∨ ∃ e ∈ EventSet.anyInterval, (.interval i, e) ∈ events := by
  obtain ⟨v, found⟩ := Table.exists_get? known
  have row : d.interval i = .ok v := interval_eq_ok_iff.2 found
  obtain ⟨v', row', -⟩ := narrows.interval i v row
  obtain ⟨w, row'', rest⟩ := h
  rw [row'] at row''
  cases row''
  by_cases same : v' = v
  · exact .inl ⟨v, row, same ▸ rest⟩
  · exact .inr (reports.interval i v v' row row' same)

/-- Once both intervals are placed, at no time both of them execute. -/
def Separated (d : Domains) (i j : IntervalId) : Prop :=
  ∀ start stop start' stop', d.Places i start stop → d.Places j start' stop' →
    ∀ time, ¬ (start ≤ time ∧ time < stop ∧ start' ≤ time ∧ time < stop')

theorem Separated.of_narrows (h : d'.Separated i j) (wellFormed' : d'.WellFormed)
    (narrows : d.Narrows d') : d.Separated i j :=
  fun _ _ _ _ placed placed' => h _ _ _ _ (placed.mono wellFormed' narrows)
    (placed'.mono wellFormed' narrows)

theorem separated_of_lacks (h : d.Lacks i ∨ d.Lacks j) : d.Separated i j := by
  intro start stop start' stop' placed placed'
  rcases h with lacks | lacks
  · exact absurd placed lacks.not_places
  · exact absurd placed' lacks.not_places

theorem separated_or_reported {events : List (Watched × Event)} (narrows : d.Narrows d')
    (reports : d.Reports d' events) (known : i.index < d.intervals.size)
    (known' : j.index < d.intervals.size) (h : d.Separated i j) :
    d'.Separated i j ∨ ∃ k, (k = i ∨ k = j) ∧ ∃ e ∈ EventSet.anyInterval,
      (.interval k, e) ∈ events := by
  by_cases told : ∃ k, (k = i ∨ k = j) ∧ ∃ e ∈ EventSet.anyInterval, (.interval k, e) ∈ events
  · exact .inr told
  · refine .inl fun _ _ _ _ placed placed' => h _ _ _ _ ?_ ?_
    · exact (places_or_reported narrows reports known placed).resolve_right fun event =>
        told ⟨i, .inl rfl, event⟩
    · exact (places_or_reported narrows reports known' placed').resolve_right fun event =>
        told ⟨j, .inr rfl, event⟩

end Domains

end Scheduling
