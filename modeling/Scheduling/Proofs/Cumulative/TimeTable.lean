import Scheduling.Proofs.Cumulative.Level

/-!
# Time-table filtering loses no solution

All rules compare one activity with the load of the others. An assignment that keeps the level
within the capacity keeps the height of every activity within what the others leave at each time at
which it executes; each rule removes only values that would not.

Results:
* `TimeTable.Supports`: an assignment that satisfies the resource, next to the profile.
* `TimeTable.earliestStart_spec`, `TimeTable.latestEnd_spec`: no start and no end is lost.
* `TimeTable.fitFrom_spec`: the longest run of segments that fit is no shorter than the activity,
  and its height is in the hull.
-/

namespace Scheduling

/-- The limits of a capacity that was accepted. -/
structure Capacity.Accepted (c : Capacity) : Prop where
  minimum_ge : Capacity.unlimitedMinimum ≤ c.minimum
  minimum_le : c.minimum ≤ Width.w64.greatest
  maximum_ge : 0 ≤ c.maximum
  maximum_le : c.maximum ≤ Capacity.unlimitedMaximum

/-- What is known once the segments up to the time `x` were looked at, of an activity that is placed
at `start` with the given length and height: the part before `x` lies in the current run of segments
that fit, and its height is in the hull. -/
structure Fit.Covers (f : Fit) (start length height x : Int) : Prop where
  current_nonneg : 0 ≤ f.current
  hull : start < x → ∃ hull, f.heights = some hull ∧ hull.low ≤ height ∧ height ≤ hull.high
  run : start < x → x ≤ start + length → x - start ≤ f.current
  longest : start + length ≤ x → length ≤ f.longest

/-- A segment from `x` to `stop` is taken into account. -/
theorem Fit.Covers.add {f : Fit} {start length height x stop : Int}
    (h : f.Covers start length height x) {allowed : Load}
    {heightMin heightMax windowStart windowEnd : Int} (lt : x < stop) (before : x < windowEnd)
    (after : windowStart < stop) (windowStart_le : windowStart ≤ start)
    (le_windowEnd : start + length ≤ windowEnd) (long : 0 < length) (low : heightMin ≤ height)
    (high : height ≤ heightMax)
    (fits : start < stop ∧ x < start + length → allowed.low ≤ height ∧ height ≤ allowed.high) :
    (f.add allowed heightMin heightMax (max x windowStart) (min stop windowEnd)).Covers start length
      height stop := by
  obtain ⟨nonneg, hull, run, longest⟩ := h
  unfold Fit.add
  split
  · refine ⟨by simp only; omega, fun _ => ?_, fun begun upTo => ?_, fun done => ?_⟩
    · refine ⟨_, rfl, ?_⟩
      cases known : f.heights with
      | none =>
        simp only
        refine fits ⟨by assumption, ?_⟩
        by_contra past
        obtain ⟨hull, some, -⟩ := hull (by omega)
        simp [known] at some
      | some heights =>
        simp only
        by_cases meets : x < start + length
        · have := fits ⟨by assumption, meets⟩
          omega
        · obtain ⟨hull, some, bounds⟩ := hull (by omega)
          rw [known] at some
          cases some
          omega
    · simp only
      by_cases earlier : start < x
      · have := run earlier (by omega)
        omega
      · omega
    · simp only
      by_cases past : start + length ≤ x
      · have := longest past
        omega
      · by_cases earlier : start < x
        · have := run earlier (by omega)
          omega
        · omega
  · rename_i unfit
    have apart : ¬ (start < stop ∧ x < start + length) := fun meets => by
      have := fits meets
      simp only [Bool.and_eq_true, decide_eq_true_eq] at unfit
      omega
    refine ⟨Int.le_refl _, fun begun => hull (by omega), fun begun upTo => ?_,
      fun done => longest (by omega)⟩
    omega

namespace TimeTable

/-- Among the segments of a window there is a run that is as long as a placement in it, and the hull
contains a height, if every segment that the placement meets allows the height. What a segment
allows may overflow, if `wide` says so. -/
theorem fitFrom_cases {t : TimeTable} {b : ActivityBounds} {wide : Prop}
    {windowStart windowEnd heightMin heightMax start length height : Int}
    (ascending : t.profile.points.toList.Pairwise fun q r => q.time < r.time)
    (ends : ∃ q ∈ t.profile.points.toList, windowEnd ≤ q.time)
    (limits : ∀ k q stop, t.profile.Stretch k q stop →
      (∃ others allowed, t.loadWithout b k = .ok others ∧
        t.capacity.allowedHeights others = .ok allowed ∧
        (start < stop ∧ q.time < start + length →
          allowed.low ≤ height ∧ height ≤ allowed.high)) ∨
      wide ∧ ∃ others, t.loadWithout b k = .ok others ∧
        t.capacity.allowedHeights others = .error .subtractionOverflow)
    (long : 0 < length) (windowStart_le : windowStart ≤ start)
    (le_windowEnd : start + length ≤ windowEnd) (low : heightMin ≤ height)
    (high : height ≤ heightMax) {left segment : Nat} {x : Int} {f : Fit}
    (within : segment + left = t.profile.segments)
    (here : ∀ q stop, t.profile.Stretch segment q stop → q.time = x ∧ windowStart < stop)
    (last : left = 0 → windowEnd ≤ x) (covers : f.Covers start length height x) :
    (∃ f', t.fitFrom b windowStart windowEnd heightMin heightMax left segment f = .ok f' ∧
      length ≤ f'.longest ∧ ∃ hull, f'.heights = some hull ∧ hull.low ≤ height ∧
        height ≤ hull.high) ∨
    wide ∧ t.fitFrom b windowStart windowEnd heightMin heightMax left segment f =
      .error .subtractionOverflow := by
  induction left generalizing segment x f with
  | zero =>
    have := last rfl
    exact .inl ⟨f, rfl, covers.longest (by omega), covers.hull (by omega)⟩
  | succ left ih =>
    obtain ⟨q, stop, stretch⟩ := Profile.exists_stretch ascending
      (show segment < t.profile.segments by omega)
    obtain ⟨rfl, after⟩ := here q stop stretch
    simp only [fitFrom, stretch.span, bind, Except.bind]
    split
    · exact .inl ⟨f, rfl, covers.longest (by omega), covers.hull (by omega)⟩
    · rename_i before
      rcases limits segment q stop stretch with
        ⟨others, allowed, without, limits, allows⟩ | ⟨wide, others, without, overflows⟩
      · simp only [without, limits]
        refine ih (by omega) (fun r stop' stretch' => ?_) (fun none => ?_)
          (covers.add stretch.lt (by omega) after windowStart_le le_windowEnd long low high allows)
        · have next := stretch.next stretch'
          have := stretch'.lt
          exact ⟨next, by omega⟩
        · obtain ⟨r, mem, le⟩ := ends
          have := stretch.last ascending (by omega) r mem
          omega
      · simp only [without, overflows]
        exact .inr ⟨wide, trivial⟩

/-- The assignment lies within what was captured, and keeps the level within the capacity wherever
one of the captured activities executes. -/
structure Supports (t : TimeTable) (cs : List Captured) (a : Assignment) : Prop where
  represents : t.profile.Represents (cs.map Captured.bounds)
  allows : ∀ c ∈ cs, c.Allows a
  within : ∀ time, (∃ c ∈ cs, c.ExecutesAt a time) →
    t.capacity.minimum ≤ a.level (cs.map Captured.activity) time ∧
      a.level (cs.map Captured.activity) time ≤ t.capacity.maximum
  few : cs.length < 2 ^ 30
  accepted : t.capacity.Accepted

/-- What the other activities contribute at a time. -/
def othersAt (cs : List Captured) (a : Assignment) (c : Captured) (time : Int) : Int :=
  a.level (cs.map Captured.activity) time - a.contribution time c.activity

section Segments

variable {t : TimeTable} {cs : List Captured} {a : Assignment} {c : Captured}
  (h : t.Supports cs a) (mem : c ∈ cs) (room : c.bounds.startMin < c.bounds.endMax)
include h mem room

/-- A contribution does not change within a segment. -/
theorem Supports.contributionAt_eq {segment : Nat} {q : TimePoint} {stop time : Int}
    (stretch : t.profile.Stretch segment q stop) (le : q.time ≤ time) (lt : time < stop) :
    c.bounds.contributionAt time = c.bounds.contributionAt q.time ∧
      c.bounds.isMandatoryAt time = c.bounds.isMandatoryAt q.time := by
  obtain ⟨⟨q₁, mem₁, eq₁⟩, ⟨q₂, mem₂, eq₂⟩, certain⟩ :=
    h.represents.changes c.bounds (List.mem_map_of_mem mem) room
  have gap₁ := stretch.gap q₁ mem₁
  have gap₂ := stretch.gap q₂ mem₂
  have same : c.bounds.isMandatoryAt time = c.bounds.isMandatoryAt q.time := by
    rw [Bool.eq_iff_iff, ActivityBounds.isMandatoryAt_eq_true_iff,
      ActivityBounds.isMandatoryAt_eq_true_iff]
    refine and_congr_right fun mandatory => ?_
    obtain ⟨⟨q₃, mem₃, eq₃⟩, q₄, mem₄, eq₄⟩ := certain mandatory
    have gap₃ := stretch.gap q₃ mem₃
    have gap₄ := stretch.gap q₄ mem₄
    omega
  refine ⟨?_, same⟩
  have inside : (decide (c.bounds.startMin ≤ time) && decide (time < c.bounds.endMax)) =
      (decide (c.bounds.startMin ≤ q.time) && decide (q.time < c.bounds.endMax)) := by
    rw [Bool.eq_iff_iff]
    simp only [Bool.and_eq_true, decide_eq_true_eq]
    omega
  simp only [ActivityBounds.contributionAt, same, inside]

/-- The load of the others bounds what they contribute throughout a segment. -/
theorem Supports.loadWithout_spec {segment : Nat} {q : TimePoint} {stop : Int}
    (stretch : t.profile.Stretch segment q stop) :
    ∃ others allowed, t.loadWithout c.bounds segment = .ok others ∧
      (∀ time, q.time ≤ time → time < stop → others.low ≤ othersAt cs a c time ∧
        othersAt cs a c time ≤ others.high) ∧
      t.capacity.allowedHeights others = .ok allowed ∧
      allowed = ⟨t.capacity.minimum - others.high, t.capacity.maximum - others.low⟩ := by
  have load (time : Int) (le : q.time ≤ time) (lt : time < stop) := h.represents.load q stretch.mem
    time le fun r mem' later => by
      have := stretch.gap r mem'
      omega
  obtain ⟨now, overlapping⟩ := load q.time (Int.le_refl _) stretch.lt
  have size := Profile.size_loadAt h.allows q.time
  have own := (h.allows c mem).size_contributionAt q.time
  have few : (cs.length : Int) < 1073741824 := by exact_mod_cast h.few
  obtain ⟨m1, m2, M1, M2⟩ := h.accepted
  simp only [Width.greatest, Capacity.unlimitedMinimum, Capacity.unlimitedMaximum] at m1 m2 M1 M2
  have word (v : Int) (le : -9223372036854775808 ≤ v) (ge : v ≤ 9223372036854775807) :
      Width.w64.Holds v := ⟨le, ge⟩
  have without : t.loadWithout c.bounds segment =
      .ok ⟨q.load.low - (c.bounds.contributionAt q.time).low,
        q.load.high - (c.bounds.contributionAt q.time).high⟩ := by
    simp only [loadWithout, stretch.point, bind, Except.bind]
    refine Load.without_eq_ok_iff.2 ⟨word _ ?_ ?_, word _ ?_ ?_, rfl⟩ <;> rw [now] <;> omega
  have bound (time : Int) (le : q.time ≤ time) (lt : time < stop) :
      q.load.low - (c.bounds.contributionAt q.time).low ≤ othersAt cs a c time ∧
        othersAt cs a c time ≤ q.load.high - (c.bounds.contributionAt q.time).high := by
    rw [(load time le lt).1, ← (h.contributionAt_eq mem room stretch le lt).1]
    exact Profile.others_mem_loadAt h.allows mem time
  -- Where something certainly executes, the minimum is below the load; elsewhere the others may
  -- contribute nothing.
  have least : t.capacity.minimum -
      (q.load.high - (c.bounds.contributionAt q.time).high) ≤ 9223372036854775807 := by
    by_cases busy : q.overlapping = 0
    · have none := (Profile.others_of_overlappingAt_eq_zero mem
        (by rw [← overlapping, busy] : Profile.overlappingAt (cs.map Captured.bounds) q.time = 0)).2
      rw [now]
      omega
    · obtain ⟨b, inside, certain⟩ := Profile.exists_of_overlappingAt_pos
        (by rw [← overlapping]; omega : 0 < Profile.overlappingAt (cs.map Captured.bounds) q.time)
      obtain ⟨c', mem', rfl⟩ := List.mem_map.1 inside
      have within := h.within q.time
        ⟨c', mem', (h.allows c' mem').executesAt_of_isMandatoryAt certain⟩
      have level := Profile.level_mem_loadAt h.allows q.time
      rw [now]
      omega
  have size' : q.load = Profile.loadAt (cs.map Captured.bounds) q.time := now
  refine ⟨_, _, without, bound, ?_, rfl⟩
  have low : Width.w64.sub t.capacity.minimum
      (q.load.high - (c.bounds.contributionAt q.time).high) = .ok _ :=
    Width.sub_eq_ok_iff.2 ⟨word _ (by rw [size']; omega) least, rfl⟩
  have high : Width.w64.sub t.capacity.maximum
      (q.load.low - (c.bounds.contributionAt q.time).low) = .ok _ :=
    Width.sub_eq_ok_iff.2 ⟨word _ (by rw [size']; omega) (by rw [size']; omega), rfl⟩
  simp only [Capacity.allowedHeights, low, high, bind, Except.bind, pure, Except.pure]

omit room in
/-- Where the activity executes, its height makes up the level together with the others. -/
theorem Supports.height_between {time : Int} (executes : c.ExecutesAt a time) :
    t.capacity.minimum ≤ othersAt cs a c time + a.value c.activity.height ∧
      othersAt cs a c time + a.value c.activity.height ≤ t.capacity.maximum := by
  have within := h.within time ⟨c, mem, executes⟩
  have own : a.contribution time c.activity = a.value c.activity.height := if_pos executes
  unfold othersAt
  omega

/-- An activity does not execute in a segment that is overloaded with it. -/
theorem Supports.isOverloadedWith_spec {segment : Nat} {q : TimePoint} {stop : Int}
    (stretch : t.profile.Stretch segment q stop) :
    ∃ overloaded, t.isOverloadedWith c.bounds segment = .ok overloaded ∧
      (overloaded = true → ∀ time, q.time ≤ time → time < stop → ¬ c.ExecutesAt a time) := by
  obtain ⟨others, allowed, without, bound, -, -⟩ := h.loadWithout_spec mem room stretch
  refine ⟨t.capacity.excludes ⟨others.low + c.bounds.heightMin, others.high + c.bounds.heightMax⟩,
    by simp only [isOverloadedWith, without, bind, Except.bind, pure, Except.pure],
    fun overloaded time le lt executes => ?_⟩
  have level := h.height_between mem executes
  have others := bound time le lt
  have low := (h.allows c mem).le_height
  have high := (h.allows c mem).height_le
  simp only [Capacity.excludes, Load.violates, Bool.or_eq_true, decide_eq_true_eq] at overloaded
  omega

/-- The segments to which the bounds of an activity belong exist. -/
theorem Supports.segment_spec {time : Int} (le : c.bounds.startMin ≤ time)
    (lt : time < c.bounds.endMax) :
    t.profile.segmentContaining time < t.profile.segments ∧
      ∃ q stop, t.profile.Stretch (t.profile.segmentContaining time) q stop ∧ q.time ≤ time ∧
        time < stop := by
  obtain ⟨⟨q₁, mem₁, eq₁⟩, ⟨q₂, mem₂, eq₂⟩, -⟩ :=
    h.represents.changes c.bounds (List.mem_map_of_mem mem) room
  exact Profile.segmentContaining_spec h.represents.ascending ⟨q₁, mem₁, by omega⟩
    ⟨q₂, mem₂, by omega⟩

/-! ## Starts and ends -/

/-- Pushing the start passes no start of an assignment that satisfies the resource. -/
theorem Supports.pushStart_spec {left segment : Nat} {start : Int}
    (within : segment + left ≤ t.profile.segments)
    (le : ∀ s l, a.interval c.activity.interval = .placed s l → start ≤ s) :
    ∃ r, t.pushStart c.bounds left segment start = .ok r ∧
      ∀ s l, a.interval c.activity.interval = .placed s l → r ≤ s := by
  induction left generalizing segment start with
  | zero => exact ⟨start, rfl, le⟩
  | succ left ih =>
    obtain ⟨q, stop, stretch⟩ := Profile.exists_stretch h.represents.ascending
      (show segment < t.profile.segments by omega)
    obtain ⟨overloaded, tested, idle⟩ := h.isOverloadedWith_spec mem room stretch
    unfold pushStart
    split
    · exact ⟨start, rfl, le⟩
    · simp only [stretch.span, bind, Except.bind]
      split
      · exact ⟨start, rfl, le⟩
      · rename_i meets
        simp only [tested]
        cases overloaded with
        | false =>
          simp only [Bool.false_eq_true, if_false]
          exact ih (by omega) le
        | true =>
          simp only [if_true]
          refine ih (by omega) fun s l placed => ?_
          have admits := (h.allows c mem).placed s l placed
          have here := le s l placed
          obtain ⟨a1, a2, a3, a4, a5, a6⟩ := admits
          have order := stretch.lt
          -- A start before the next one would make the activity execute at the start of the
          -- segment, or at its own start.
          refine Int.le_of_not_gt fun early => idle rfl (max q.time s) (by omega) ?_ ?_
          · split at early <;> omega
          · simp only [Captured.ExecutesAt, placed, IntervalValue.executesAt, Bool.and_eq_true,
              decide_eq_true_eq]
            split at early <;> omega

theorem Supports.earliestStart_spec : ∃ r, t.earliestStart c.bounds = .ok r ∧
    ∀ s l, a.interval c.activity.interval = .placed s l → r ≤ s := by
  obtain ⟨lt, -⟩ := h.segment_spec mem room (Int.le_refl _) room
  refine h.pushStart_spec mem room (by omega) fun s l placed => ?_
  exact ((h.allows c mem).placed s l placed).startMin_le

/-- Pushing the end passes no end of an assignment that satisfies the resource. -/
theorem Supports.pushEnd_spec {left : Nat} {stop : Int} (within : left ≤ t.profile.segments)
    (le : ∀ s l, a.interval c.activity.interval = .placed s l → s + l ≤ stop) :
    ∃ r, t.pushEnd c.bounds left stop = .ok r ∧
      ∀ s l, a.interval c.activity.interval = .placed s l → s + l ≤ r := by
  induction left generalizing stop with
  | zero => exact ⟨stop, rfl, le⟩
  | succ segment ih =>
    obtain ⟨q, segmentEnd, stretch⟩ := Profile.exists_stretch h.represents.ascending within
    obtain ⟨overloaded, tested, idle⟩ := h.isOverloadedWith_spec mem room stretch
    unfold pushEnd
    split
    · exact ⟨stop, rfl, le⟩
    · simp only [stretch.span, bind, Except.bind]
      split
      · exact ⟨stop, rfl, le⟩
      · rename_i meets
        simp only [tested]
        cases overloaded with
        | false =>
          simp only [Bool.false_eq_true, if_false]
          exact ih (by omega) le
        | true =>
          simp only [if_true]
          refine ih (by omega) fun s l placed => ?_
          have here := le s l placed
          obtain ⟨a1, a2, a3, a4, a5, a6⟩ := (h.allows c mem).placed s l placed
          have order := stretch.lt
          -- A later end would make the activity execute at the end of the segment, or at its own
          -- end.
          refine Int.le_of_not_gt fun late => idle rfl (min segmentEnd (s + l) - 1) ?_ (by omega) ?_
          · split at late <;> omega
          · simp only [Captured.ExecutesAt, placed, IntervalValue.executesAt, Bool.and_eq_true,
              decide_eq_true_eq]
            split at late <;> omega

theorem Supports.latestEnd_spec : ∃ r, t.latestEnd c.bounds = .ok r ∧
    ∀ s l, a.interval c.activity.interval = .placed s l → s + l ≤ r := by
  obtain ⟨lt, -⟩ := h.segment_spec mem room (show c.bounds.startMin ≤ c.bounds.endMax - 1 by omega)
    (by omega)
  exact h.pushEnd_spec mem room (by omega) fun s l placed =>
    ((h.allows c mem).placed s l placed).le_endMax

/-! ## Runs of segments that fit -/

/-- The segments of the window say that the activity fits. -/
theorem Supports.fitFrom_spec {windowStart windowEnd heightMin heightMax start length : Int}
    (placed : a.interval c.activity.interval = .placed start length) (long : 0 < length)
    (windowStart_le : windowStart ≤ start) (le_windowEnd : start + length ≤ windowEnd)
    (windowEnd_le : windowEnd ≤ c.bounds.endMax) (low : heightMin ≤ a.value c.activity.height)
    (high : a.value c.activity.height ≤ heightMax) {left segment : Nat} {x : Int} {f : Fit}
    (within : segment + left = t.profile.segments)
    (here : ∀ q stop, t.profile.Stretch segment q stop → q.time = x ∧ windowStart < stop)
    (last : left = 0 → windowEnd ≤ x)
    (covers : f.Covers start length (a.value c.activity.height) x) :
    ∃ f', t.fitFrom c.bounds windowStart windowEnd heightMin heightMax left segment f = .ok f' ∧
      length ≤ f'.longest ∧ ∃ hull, f'.heights = some hull ∧
        hull.low ≤ a.value c.activity.height ∧ a.value c.activity.height ≤ hull.high := by
  obtain ⟨-, ⟨r, mem', eq⟩, -⟩ := h.represents.changes c.bounds (List.mem_map_of_mem mem) room
  refine (fitFrom_cases h.represents.ascending ⟨r, mem', by omega⟩
    (fun k q stop stretch => .inl ?_) long windowStart_le le_windowEnd low high within here last
    covers).resolve_right fun overflows : False ∧ _ => overflows.1
  obtain ⟨others, allowed, without, bound, limits, rfl⟩ := h.loadWithout_spec mem room stretch
  refine ⟨others, _, without, limits, fun meets => ?_⟩
  have time : q.time ≤ max q.time start ∧ max q.time start < stop := by
    have := stretch.lt
    omega
  have executes : c.ExecutesAt a (max q.time start) := by
    simp only [Captured.ExecutesAt, placed, IntervalValue.executesAt, Bool.and_eq_true,
      decide_eq_true_eq]
    omega
  have level := h.height_between mem executes
  have others := bound _ time.1 time.2
  constructor
  · simp only
    omega
  · simp only
    omega

end Segments

end TimeTable

end Scheduling
