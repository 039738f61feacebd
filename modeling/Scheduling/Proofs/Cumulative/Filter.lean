import Scheduling.Proofs.Cumulative.TimeTable
import Scheduling.Proofs.Solutions

/-!
# The filter of an activity

Filtering an activity succeeds and keeps every assignment within the domains that keeps the level
within the capacity.

Results:
* `Propagation.returns_restrict`: restricting a height to a range that contains it.
* `TimeTable.returns_cover`, `TimeTable.returns_fit`, `TimeTable.returns_place`: the rules.
* `TimeTable.returns_filter`: all of them.
-/

namespace Scheduling

namespace Propagation

variable {a : Assignment} {s s₀ : Store}

theorem returns_restrict_upper (h : s₀.Keeps a s) {v : Variable} {value low high : Int}
    (lower : v.lower s.domains = .ok low) (upper : v.upper s.domains = .ok high)
    (le : a.value v ≤ value) :
    Returns (if value < high then setBound v .upper (Width.w32.saturate value) else pure ()) s
      fun _ s' => s₀.Keeps a s' := by
  obtain ⟨holds, holds', ge, _⟩ := Activity.height_between h.wellFormed lower upper h.admits
  split
  · rename_i cuts
    have word : Width.w32.Holds value := by
      simp only [Width.Holds] at *
      omega
    rw [Width.saturate_eq_self word]
    exact returns_setBound h lower upper le ⟨by omega, cuts⟩
  · exact returns_pure h

/-- Restricting a variable to a range that contains its value succeeds and keeps the assignment. -/
theorem returns_restrict (h : s₀.Keeps a s) {v : Variable} {range : Load} {low high : Int}
    (lower : v.lower s.domains = .ok low) (upper : v.upper s.domains = .ok high)
    (le : range.low ≤ a.value v) (ge : a.value v ≤ range.high) :
    Returns (restrict v range) s fun _ s' => s₀.Keeps a s' := by
  obtain ⟨holds, holds', above, below⟩ := Activity.height_between h.wellFormed lower upper h.admits
  unfold restrict
  refine returns_inspect_bind lower (returns_inspect_bind upper ?_)
  have nonempty : ¬ ((decide (range.low > high) || decide (range.high < low)) = true) := by
    simp only [Bool.or_eq_true, decide_eq_true_eq]
    omega
  rw [if_neg nonempty]
  simp only
  split
  · rename_i cuts
    have word : Width.w32.Holds range.low := by
      simp only [Width.Holds] at *
      omega
    rw [Width.saturate_eq_self word]
    obtain ⟨d', wrote, admits⟩ := Domains.exists_setBound h.wellFormed lower upper h.admits
      (show Side.lower.Keeps range.low (a.value v) from le) ⟨by omega, by omega⟩
    obtain ⟨wellFormed, moved⟩ := Domains.evolves_of_setBound h.wellFormed wrote
    have next : s₀.Keeps a { s with domains := d' } :=
      ⟨wellFormed, h.narrows.trans moved.narrows, admits, h.cells⟩
    have upper' := Domains.upper_of_setBound_lower h.wellFormed wrote upper
    obtain ⟨low', _, lower', -⟩ :=
      moved.narrows.exists_ends h.wellFormed wellFormed lower upper
    exact returns_change_bind wrote (returns_restrict_upper next lower' upper' ge)
  · exact returns_restrict_upper h lower upper ge

end Propagation

namespace TimeTable

open Propagation

section Filter

variable {t : TimeTable} {cs : List Captured} {a : Assignment} {c : Captured} {s s₀ : Store}
  (h : t.Supports cs a) (mem : c ∈ cs) (room : c.bounds.startMin < c.bounds.endMax)
  (captured : c.activity.bounds s₀.domains = .ok c.bounds) (wellFormed : s₀.domains.WellFormed)
include h mem room captured wellFormed

omit h mem room wellFormed in
/-- The interval of a captured activity exists, and its bounds are those captured. -/
theorem exists_interval : ∃ v, s₀.domains.interval c.activity.interval = .ok v ∧
    c.bounds.toBounds = v.toBounds ∧ c.bounds.isPresent = v.isPresent := by
  obtain ⟨v, row, same, -, -, present, -⟩ := Activity.bounds_eq_ok captured
  exact ⟨v, row, same, present⟩

/-- The height of the activity at one of the times at which it executes is allowed next to the
others. -/
theorem Supports.returns_tightenHeight (keeps : s₀.Keeps a s) {segment : Nat} {q : TimePoint}
    {stop : Int} (stretch : t.profile.Stretch segment q stop) {others : Load}
    (without : t.loadWithout c.bounds segment = .ok others) {time : Int} (le : q.time ≤ time)
    (lt : time < stop) (executes : c.ExecutesAt a time) :
    Returns (t.tightenHeight c.activity others) s fun _ s' => s₀.Keeps a s' := by
  obtain ⟨others', allowed, without', bound, limits, rfl⟩ := h.loadWithout_spec mem room stretch
  rw [without] at without'
  cases without'
  obtain ⟨v, row, -, lower, upper, -, -⟩ := Activity.bounds_eq_ok captured
  obtain ⟨low, high, lower', upper'⟩ :=
    keeps.narrows.exists_ends wellFormed keeps.wellFormed lower upper
  have level := h.height_between mem executes
  have others := bound time le lt
  refine returns_liftM_bind limits (returns_restrict keeps lower' upper' ?_ ?_)
  · simp only
    omega
  · simp only
    omega

omit room wellFormed in
/-- Moving a bound of the interval, to a value that the assignment is on the right side of. -/
theorem Supports.returns_tighten (keeps : s₀.Keeps a s) {which : Bound} {value : Int}
    (allowed : ∀ start length, a.interval c.activity.interval = .placed start length →
      which.Keeps value start length) :
    Returns (tighten c.activity.interval which (Width.w32.saturate value)) s
      fun _ s' => s₀.Keeps a s' := by
  obtain ⟨v, row, -, -⟩ := exists_interval captured
  refine Propagation.returns_tighten keeps row fun start length placed => ?_
  have kept := allowed start length placed
  obtain ⟨b1, b2, b3, b4, b5, b6⟩ := (h.allows c mem).placed start length placed
  obtain ⟨s1, s2, s3, s4, s5, s6, s7, s8, s9, s10, s11, s12⟩ := (h.allows c mem).settled
  simp only [horizon] at s1 s2
  cases which <;> simp only [Bound.Keeps, Width.saturate, Width.least, Width.greatest] at kept ⊢ <;>
    omega

/-- An activity without which the level would leave the capacity is made to execute. -/
theorem Supports.returns_force (keeps : s₀.Keeps a s) {segment : Nat} {q : TimePoint} {stop : Int}
    (stretch : t.profile.Stretch segment q stop) {others : Load}
    (without : t.loadWithout c.bounds segment = .ok others)
    (executes : ∀ time, q.time ≤ time → time < stop → c.ExecutesAt a time) :
    Returns (t.force c.activity q.time stop others) s fun _ s' => s₀.Keeps a s' := by
  obtain ⟨v, row, -, -⟩ := exists_interval captured
  have order := stretch.lt
  have first := executes q.time (Int.le_refl _) order
  have last := executes (stop - 1) (by omega) (by omega)
  obtain ⟨start, length, placed⟩ : ∃ start length,
      a.interval c.activity.interval = .placed start length := by
    cases value : a.interval c.activity.interval with
    | absent => simp [Captured.ExecutesAt, value, IntervalValue.executesAt] at first
    | placed start length => exact ⟨start, length, rfl⟩
  simp only [Captured.ExecutesAt, placed, IntervalValue.executesAt, Bool.and_eq_true,
    decide_eq_true_eq] at first last
  refine returns_bind (Q := fun _ s' => s₀.Keeps a s') (returns_say (keeps.say _))
    fun _ s₁ keeps => ?_
  refine returns_bind (returns_update keeps row (by simp [Update.Keeps, placed])) fun _ s₂ keeps => ?_
  refine returns_bind (h.returns_tighten mem captured keeps fun s l placed' => ?_)
    fun _ s₃ keeps => ?_
  · rw [placed] at placed'
    cases placed'
    exact first.1
  refine returns_bind (h.returns_tighten mem captured keeps fun s l placed' => ?_)
    fun _ s₄ keeps => ?_
  · rw [placed] at placed'
    cases placed'
    simp only [Bound.Keeps]
    omega
  · exact h.returns_tightenHeight mem room captured wellFormed keeps stretch without
      (Int.le_refl _) order (executes q.time (Int.le_refl _) order)

omit captured wellFormed in
/-- Where something certainly executes and the others alone are outside the capacity, the activity
executes. -/
theorem Supports.executes_of_excludes {segment : Nat} {q : TimePoint} {stop : Int}
    (stretch : t.profile.Stretch segment q stop) (busy : 0 < q.overlapping) {others : Load}
    (without : t.loadWithout c.bounds segment = .ok others)
    (excludes : t.capacity.excludes others = true) {time : Int} (le : q.time ≤ time)
    (lt : time < stop) : c.ExecutesAt a time := by
  obtain ⟨others', -, without', bound, -, -⟩ := h.loadWithout_spec mem room stretch
  rw [without] at without'
  cases without'
  obtain ⟨-, overlapping⟩ := h.represents.load q stretch.mem time le fun r mem' later => by
    have := stretch.gap r mem'
    omega
  obtain ⟨b, inside, certain⟩ := Profile.exists_of_overlappingAt_pos
    (by rw [← overlapping]; exact busy : 0 < Profile.overlappingAt (cs.map Captured.bounds) time)
  obtain ⟨c', mem', rfl⟩ := List.mem_map.1 inside
  have within := h.within time ⟨c', mem', (h.allows c' mem').executesAt_of_isMandatoryAt certain⟩
  have level := bound time le lt
  by_contra idle
  have own : a.contribution time c.activity = 0 := if_neg idle
  unfold othersAt at level
  simp only [Capacity.excludes, Load.violates, Bool.or_eq_true, decide_eq_true_eq] at excludes
  omega

theorem Supports.returns_coverFrom {rules : Rules} {left segment : Nat}
    (within : segment + left ≤ t.profile.segments) (keeps : s₀.Keeps a s) :
    Returns (t.coverFrom c rules left segment) s fun _ s' => s₀.Keeps a s' := by
  induction left generalizing segment s with
  | zero => exact returns_pure keeps
  | succ left ih =>
    obtain ⟨q, stop, stretch⟩ := Profile.exists_stretch h.represents.ascending
      (show segment < t.profile.segments by omega)
    obtain ⟨others, allowed, without, -⟩ := h.loadWithout_spec mem room stretch
    unfold coverFrom
    refine returns_liftM_bind stretch.span ?_
    simp only
    split
    · exact returns_pure keeps
    refine returns_liftM_bind stretch.point (returns_liftM_bind without ?_)
    have rest (s' : Store) (keeps : s₀.Keeps a s') :
        Returns (t.coverFrom c rules left (segment + 1)) s' fun _ s'' => s₀.Keeps a s'' :=
      ih (by omega) keeps
    have order := stretch.lt
    split
    · rename_i certain
      refine returns_when (fun _ => ?_) keeps rest
      exact h.returns_tightenHeight mem room captured wellFormed keeps stretch without
        (Int.le_refl _) order ((h.allows c mem).executesAt_of_isMandatoryAt certain)
    · refine returns_when (fun needed => ?_) keeps rest
      simp only [Bool.and_eq_true, decide_eq_true_eq] at needed
      exact h.returns_force mem room captured wellFormed keeps stretch without
        fun time le lt => h.executes_of_excludes mem room stretch needed.1.2 without needed.2 le lt

theorem Supports.returns_cover {rules : Rules} (keeps : s₀.Keeps a s) :
    Returns (t.cover c rules) s fun _ s' => s₀.Keeps a s' := by
  obtain ⟨lt, -⟩ := h.segment_spec mem room (Int.le_refl _) room
  exact h.returns_coverFrom mem room captured wellFormed (by omega) keeps

omit wellFormed in
/-- The start and the end are moved past no placement of the assignment. -/
theorem Supports.returns_place (keeps : s₀.Keeps a s) :
    Returns (t.place c) s fun _ s' => s₀.Keeps a s' := by
  obtain ⟨start, known, le⟩ := h.earliestStart_spec mem room
  obtain ⟨stop, known', ge⟩ := h.latestEnd_spec mem room
  refine returns_liftM_bind known (returns_when (fun _ => ?_) keeps fun s' keeps =>
    returns_liftM_bind known' ?_)
  · exact h.returns_tighten mem captured keeps le
  · split
    · exact h.returns_tighten mem captured keeps ge
    · exact returns_pure keeps

/-- The length and the height of an activity that executes somewhere fit the segments it covers. -/
theorem Supports.returns_fit (keeps : s₀.Keeps a s) (long : 0 < c.bounds.lengthMin)
    (present : ∀ v, s.domains.interval c.activity.interval = .ok v → v.isPresent = true) :
    Returns (t.fit c) s fun _ s' => s₀.Keeps a s' := by
  obtain ⟨v₀, row₀, same, -⟩ := exists_interval captured
  obtain ⟨v, row, narrows⟩ := keeps.narrows.interval _ v₀ row₀
  obtain ⟨_, _, -, lower₀, upper₀, -, -⟩ := Activity.bounds_eq_ok captured
  obtain ⟨low, high, lower, upper⟩ :=
    keeps.narrows.exists_ends wellFormed keeps.wellFormed lower₀ upper₀
  obtain ⟨-, -, le, ge⟩ := Activity.height_between keeps.wellFormed lower upper keeps.admits
  obtain ⟨start, length, placed⟩ : ∃ start length,
      a.interval c.activity.interval = .placed start length := by
    cases value : a.interval c.activity.interval with
    | absent =>
      have admits := keeps.admits.interval _ v row
      have := present v row
      simp_all [Interval.Admits, Interval.isPresent]
    | placed start length => exact ⟨start, length, rfl⟩
  have admits := keeps.admits.interval _ v row
  rw [placed] at admits
  have now := admits.2
  have before := (h.allows c mem).placed start length placed
  have tightens := narrows.tightens
  rw [← same] at tightens
  have opens := now.startMin_le
  have closes := now.le_endMax
  have least := before.lengthMin_le
  have nested := tightens.startMin_le
  have nested' := tightens.le_endMax
  unfold fit
  refine returns_inspect_bind row (returns_inspect_bind lower (returns_inspect_bind upper ?_))
  split
  · exact returns_pure keeps
  rename_i opened
  obtain ⟨lt, q, stop, stretch, begins, ends⟩ := h.segment_spec mem room nested
    (by omega)
  have start_covers : (⟨none, 0, 0⟩ : Fit).Covers start length (a.value c.activity.height) q.time :=
    ⟨Int.le_refl _, fun late => by omega, fun late => by omega, fun late => by omega⟩
  obtain ⟨f, fits, longest, hull, known, low', high'⟩ := h.fitFrom_spec mem room placed (by omega)
    opens closes nested' le ge
    (show t.profile.segmentContaining v.startMin +
      (t.profile.segments - t.profile.segmentContaining v.startMin) = t.profile.segments by omega)
    (fun q' stop' stretch' => by
      obtain ⟨rfl, rfl⟩ := stretch.unique stretch'
      exact ⟨rfl, ends⟩) (fun none => by omega) start_covers
  refine returns_liftM_bind fits ?_
  simp only [known]
  have restricts (s' : Store) (keeps : s₀.Keeps a s') :
      Returns (restrict c.activity.height hull) s' fun _ s'' => s₀.Keeps a s'' := by
    obtain ⟨low, high, lower, upper⟩ :=
      keeps.narrows.exists_ends wellFormed keeps.wellFormed lower₀ upper₀
    exact returns_restrict keeps lower upper low' high'
  split
  · refine returns_bind (Q := fun _ s' => s₀.Keeps a s') (returns_say (keeps.say _))
      fun _ s₁ keeps => returns_bind (h.returns_tighten mem captured keeps
        fun s l placed' => ?_) fun _ s₂ keeps => restricts s₂ keeps
    rw [placed] at placed'
    cases placed'
    exact longest
  · exact restricts s keeps

/-- The rules succeed and keep the assignment. -/
theorem Supports.returns_filter {rules : Rules} (keeps : s₀.Keeps a s) :
    Returns (t.filter rules c) s fun _ s' => s₀.Keeps a s' := by
  obtain ⟨v₀, row₀, -⟩ := exists_interval captured
  unfold filter
  rw [if_neg (by omega)]
  refine returns_bind (h.returns_place mem room captured keeps) fun _ s₁ keeps => ?_
  obtain ⟨v, row, -⟩ := keeps.narrows.interval _ v₀ row₀
  refine returns_inspect_bind row ?_
  split
  · exact returns_say (keeps.say _)
  refine returns_when (fun _ => h.returns_cover mem room captured wellFormed keeps) keeps
    fun s₂ keeps => ?_
  split
  · rename_i long
    simp only [Bool.and_eq_true, decide_eq_true_eq] at long
    obtain ⟨v, row, -⟩ := keeps.narrows.interval _ v₀ row₀
    refine returns_inspect_bind row ?_
    split
    · rename_i present
      exact h.returns_fit mem room captured wellFormed keeps long.2 fun w row' => by
        rw [row] at row'
        cases row'
        exact present
    · exact returns_pure keeps
  · exact returns_pure keeps

end Filter

end TimeTable

end Scheduling
