import Mathlib.Tactic.Common
import Scheduling.Proofs.Cumulative.Level
import Scheduling.Proofs.Operations
import Scheduling.Proofs.Solutions

/-!
# Activities that are fixed

A fixed activity stays fixed while domains narrow, and it contributes the same to a level under all
assignments within the domains. No change of an activity goes unnoticed by those that wait for it.

Results:
* `Domains.WellFormed.exists_admits`: well-formed domains admit some assignment.
* `Activity.isFixed_of_narrows`: fixed activities stay fixed.
* `Activity.contribution_eq_of_isFixed`: what they contribute is known.
* `Activity.isFixed_eq_or_tells`: an activity is as it was, or a watch tells of its change.
-/

namespace Scheduling

/-- Well-formed domains admit some assignment. -/
theorem Domains.WellFormed.exists_admits {d : Domains} (h : d.WellFormed) : ∃ a, d.Admits a := by
  have integer (x : IntegerId) : ∃ value, ∀ row, d.integer x = .ok row → row.Admits value := by
    cases found : d.integer x with
    | error fault => exact ⟨0, fun row eq => by cases eq⟩
    | ok row =>
      refine ⟨row.lower, fun row' eq => ?_⟩
      cases eq
      exact (h.integer x row found).admits_bound .lower
  have interval (i : IntervalId) : ∃ value, ∀ row, d.interval i = .ok row → row.Admits value := by
    cases found : d.interval i with
    | error fault => exact ⟨.absent, fun row eq => by cases eq⟩
    | ok row =>
      obtain ⟨value, admits⟩ := (h.interval i row found).exists_admits
      refine ⟨value, fun row' eq => ?_⟩
      cases eq
      exact admits
  choose integers admits using integer
  choose intervals admits' using interval
  exact ⟨⟨integers, intervals⟩, admits, admits'⟩

/-- What a variable can be depends on the row underneath. -/
theorem Variable.bound_congr {v : Variable} {d d' : Domains}
    (same : d'.integer v.base = d.integer v.base) (side : Side) : v.bound side d' = v.bound side d := by
  induction v generalizing side with
  | plain x =>
    simp only [base] at same
    simp only [bound, same]
  | literal l =>
    simp only [base] at same
    simp only [bound, same]
  | affine inner f ih => simp only [bound, ih same]

/-- A layer that reverses the order of the values exchanges the events of both bounds. -/
theorem Variable.mem_watch_bounds (v : Variable) {events : EventSet}
    (both : .lowerBound ∈ events ∧ .upperBound ∈ events) :
    .lowerBound ∈ v.watch events ∧ .upperBound ∈ v.watch events := by
  have reversed {events : EventSet} (both : .lowerBound ∈ events ∧ .upperBound ∈ events) (c : Prop)
      [Decidable c] : .lowerBound ∈ (if c then events.reversed else events) ∧
        .upperBound ∈ (if c then events.reversed else events) := by
    split
    · exact ⟨EventSet.mem_reversed.2 both.2, EventSet.mem_reversed.2 both.1⟩
    · exact both
  induction v generalizing events with
  | plain => exact both
  | literal l => exact reversed both _
  | affine inner f ih => exact ih (reversed both _)

/-- A variable with one value keeps it. -/
theorem Variable.isFixed_of_narrows {v : Variable} {d d' : Domains} (wellFormed : d.WellFormed)
    (wellFormed' : d'.WellFormed) (narrows : d.Narrows d') (fixed : v.isFixed d = .ok true) :
    v.isFixed d' = .ok true := by
  obtain ⟨low, lower, rest⟩ := bind_eq_ok_iff.1 fixed
  obtain ⟨high, upper, -⟩ := bind_eq_ok_iff.1 rest
  obtain ⟨low', high', lower', upper'⟩ :=
    narrows.exists_ends wellFormed wellFormed' lower upper
  obtain ⟨row, here⟩ := exists_row_of_bound lower
  obtain ⟨row', here', narrower⟩ := narrows.integer _ row here
  have rowWellFormed' := wellFormed'.integer _ row' here'
  have value := (bound_eq_ok_iff here' rowWellFormed').1 lower'
  have value' := (bound_eq_ok_iff here' rowWellFormed').1 upper'
  have same : low' = high' := by
    rw [value.2, value'.2]
    exact eval_eq_of_isFixed here (wellFormed.integer _ row here) fixed
      (narrower.admits (rowWellFormed'.admits_bound _))
      (narrower.admits (rowWellFormed'.admits_bound _))
  simp [isFixed, lower', upper', same, bind, Except.bind, pure, Except.pure]

namespace Activity

variable {x : Activity} {d d' : Domains}

theorem isFixed_eq_true_iff : x.isFixed d = .ok true ↔
    ∃ v, d.interval x.interval = .ok v ∧ (v.isAbsent = true ∨
      v.isAbsent = false ∧ v.isPresent = true ∧ v.toBounds.isFixed = true ∧
        x.height.isFixed d = .ok true) := by
  unfold isFixed
  cases d.interval x.interval with
  | error fault => simp [bind, Except.bind]
  | ok v =>
    cases absent : v.isAbsent with
    | true => simp [absent, bind, Except.bind, pure, Except.pure]
    | false =>
      simp only [bind, Except.bind, pure, Except.pure, Interval.isFixed, absent, Bool.false_or,
        Bool.false_eq_true, if_false, Except.ok.injEq, exists_eq_left', false_or, true_and]
      by_cases settled : v.isPresent = true ∧ v.toBounds.isFixed = true
      · simp [settled.1, settled.2]
      · rw [if_neg (by simpa using settled)]
        simp only [Except.ok.injEq, Bool.false_eq_true, false_iff]
        exact fun fixed => settled ⟨fixed.1, fixed.2.1⟩

/-- Fixed activities stay fixed. -/
theorem isFixed_of_narrows (wellFormed : d.WellFormed) (wellFormed' : d'.WellFormed)
    (narrows : d.Narrows d') (fixed : x.isFixed d = .ok true) : x.isFixed d' = .ok true := by
  obtain ⟨v, row, absent | ⟨-, present, settled, height⟩⟩ := isFixed_eq_true_iff.1 fixed <;>
    obtain ⟨v', row', narrower⟩ := narrows.interval _ v row
  · exact isFixed_eq_true_iff.2 ⟨v', row', .inl (narrower.isAbsent absent)⟩
  · have present' := narrower.isPresent present
    obtain ⟨t1, t2, t3, t4, -, -⟩ := narrower.tightens
    obtain ⟨-, -, -, s4, -, s6, -, -, -, -, -, -⟩ := wellFormed'.interval _ v' row'
    refine isFixed_eq_true_iff.2 ⟨v', row', .inr ⟨?_, present', ?_,
      Variable.isFixed_of_narrows wellFormed wellFormed' narrows height⟩⟩
    · simp only [Interval.isPresent, Interval.isAbsent, beq_iff_eq] at present' ⊢
      simp [present']
    · simp only [Bounds.isFixed, Bool.and_eq_true, beq_iff_eq] at settled ⊢
      have order := Bounds.Settled.start_le (wellFormed'.interval _ v' row')
      have order' := Bounds.Settled.end_le (wellFormed'.interval _ v' row')
      omega

/-- Two assignments within the domains agree on an activity that is fixed. -/
theorem contribution_eq_of_isFixed (wellFormed : d.WellFormed) {a a' : Assignment}
    (admits : d.Admits a) (admits' : d.Admits a') (fixed : x.isFixed d = .ok true) :
    a.interval x.interval = a'.interval x.interval ∧
      ∀ t, a.contribution t x = a'.contribution t x := by
  obtain ⟨v, row, absent | ⟨-, present, settled, height⟩⟩ := isFixed_eq_true_iff.1 fixed
  · have none (b : Assignment) (inside : d.Admits b) : b.interval x.interval = .absent := by
      have admits := inside.interval _ v row
      cases value : b.interval x.interval with
      | absent => rfl
      | placed start length =>
        rw [value] at admits
        simp [Interval.isAbsent] at absent
        exact absurd absent admits.1
    refine ⟨by rw [none a admits, none a' admits'], fun t => ?_⟩
    simp [Assignment.contribution_eq, none a admits, none a' admits', IntervalValue.executesAt]
  · have same : a.interval x.interval = a'.interval x.interval := by
      have inside := admits.interval _ v row
      have inside' := admits'.interval _ v row
      simp only [Interval.isPresent, beq_iff_eq] at present
      simp only [Bounds.isFixed, Bool.and_eq_true, beq_iff_eq] at settled
      cases value : a.interval x.interval with
      | absent =>
        rw [value] at inside
        exact absurd present inside
      | placed start length =>
        cases value' : a'.interval x.interval with
        | absent =>
          rw [value'] at inside'
          exact absurd present inside'
        | placed start' length' =>
          rw [value] at inside
          rw [value'] at inside'
          obtain ⟨a1, a2, a3, a4, -, -⟩ := inside.2
          obtain ⟨b1, b2, b3, b4, -, -⟩ := inside'.2
          simp only [IntervalValue.placed.injEq]
          omega
    have value : a.value x.height = a'.value x.height := by
      obtain ⟨low, lower, -⟩ := bind_eq_ok_iff.1 height
      obtain ⟨row, here⟩ := Variable.exists_row_of_bound lower
      exact Variable.eval_eq_of_isFixed here (wellFormed.integer _ row here) height
        (admits.integer _ row here) (admits'.integer _ row here)
    exact ⟨same, fun t => by rw [Assignment.contribution_eq, Assignment.contribution_eq, same, value]⟩

/-- An activity is as it was, or a watch tells of its change. -/
theorem isFixed_eq_or_tells (narrows : d.Narrows d') {events : List (Watched × Event)}
    (reports : d.Reports d' events) (known : x.interval.index < d.intervals.size)
    (known' : x.height.base.index < d.integers.size) : x.isFixed d' = x.isFixed d ∨
      ∃ v event, (v, event) ∈ events ∧ ∃ watch ∈ x.watches, watch.Tells v event := by
  obtain ⟨v, found⟩ := Table.exists_get? known
  obtain ⟨height, found'⟩ := Table.exists_get? known'
  have row : d.interval x.interval = .ok v := Domains.interval_eq_ok_iff.2 found
  have heightRow : d.integer x.height.base = .ok height := Domains.integer_eq_ok_iff.2 found'
  obtain ⟨v', row', -⟩ := narrows.interval _ v row
  obtain ⟨height', heightRow', -⟩ := narrows.integer _ height heightRow
  have both : .lowerBound ∈ x.height.watch .bounds ∧ .upperBound ∈ x.height.watch .bounds :=
    x.height.mem_watch_bounds (by simp [EventSet.bounds])
  by_cases same : v' = v
  · by_cases same' : height' = height
    · left
      have ends := Variable.bound_congr (v := x.height) (heightRow'.trans (same' ▸ heightRow.symm))
      simp only [isFixed, Variable.isFixed, Variable.lower, Variable.upper, ends, row, row', same]
    · right
      rcases reports.bounds _ height height' heightRow heightRow' same' with mem | mem
      · exact ⟨_, _, mem, .variable x.height .bounds, by simp [watches], rfl, both.1⟩
      · exact ⟨_, _, mem, .variable x.height .bounds, by simp [watches], rfl, both.2⟩
  · right
    obtain ⟨event, any, mem⟩ := reports.interval _ v v' row row' same
    exact ⟨_, event, mem, .interval x.interval .anyInterval, by simp [watches], rfl, any⟩

end Activity

end Scheduling
