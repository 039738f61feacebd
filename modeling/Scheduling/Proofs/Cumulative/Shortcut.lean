import Scheduling.Proofs.Cumulative.Preservation
import Scheduling.Proofs.Cumulative.Sweeps
import Scheduling.Proofs.Following

/-!
# Filtering without the rules for heights and lengths

Next to fixed heights that are not negative, and without a lower limit, the rules for heights and
lengths change nothing that the sweeps have not changed before. Where an activity certainly
executes, the test of the profile has shown that its height is allowed. Where it may move, its first
start covers no overloaded segment; all segments from there on, for its whole length, allow its
height, so the longest run is long enough. The rules still compute differences that the sweeps do
not, and those could overflow.

Results:
* `TimeTable.Steady`: a profile that passed the test, of activities with known lengths and heights.
* `TimeTable.Steady.follows_cover`, `TimeTable.Steady.follows_fit`: the rules change nothing.
* `TimeTable.Steady.place_spec`: where the sweeps leave an interval.
* `Capacity.MarginsHold`, `Capacity.marginsHold_of_length_le`: these differences fit a word, for up to
  `3 * 2 ^ 30` activities.
* `Resource.shortcut_agrees`: filtering without the rules agrees with filtering with them.
-/

namespace Scheduling

namespace Propagation

/-- A range that contains the bounds of a variable restricts nothing. -/
theorem exec_restrict_of_between {s : Store} {v : Variable} {low high : Int} {range : Load}
    (lower : v.lower s.domains = .ok low) (upper : v.upper s.domains = .ok high)
    (nonempty : low ≤ high) (le : range.low ≤ low) (ge : high ≤ range.high) :
    (restrict v range).exec s = .ok (.ok (), s) := by
  simp only [restrict, Propagation.lower, Propagation.upper, exec_bind, exec_inspect, lower, upper,
    Except.map]
  rw [if_neg (by simp only [Bool.or_eq_true, decide_eq_true_eq]; omega),
    if_neg (by omega), if_neg (by omega)]
  rfl

end Propagation

/-! ## Words -/

/-- The height that others leave, or an overflow. -/
theorem Capacity.allowedHeights_cases (c : Capacity) (others : Load) :
    c.allowedHeights others = .ok ⟨c.minimum - others.high, c.maximum - others.low⟩ ∨
    ¬ (Width.w64.Holds (c.minimum - others.high) ∧ Width.w64.Holds (c.maximum - others.low)) ∧
      c.allowedHeights others = .error .subtractionOverflow := by
  unfold allowedHeights Width.sub Width.narrow
  by_cases low : Width.w64.Holds (c.minimum - others.high)
  · by_cases high : Width.w64.Holds (c.maximum - others.low)
    · exact .inl (by simp only [low, high, if_true]; rfl)
    · exact .inr ⟨fun both => high both.2, by simp only [low, high, if_true, if_false]; rfl⟩
  · exact .inr ⟨fun both => low both.1, by simp only [low, if_false]; rfl⟩

namespace Profile

variable {bs : List ActivityBounds} {p : Profile}

theorem holds_of_accumulate {load : Load} {overlap : Int} {ds : List Delta}
    {points : List TimePoint} (h : accumulate load overlap ds = .ok points) :
    ∀ q ∈ points, Width.w64.Holds q.load.low ∧ Width.w64.Holds q.load.high := by
  induction ds generalizing load overlap points with
  | nil =>
    cases h
    exact fun q mem => absurd mem List.not_mem_nil
  | cons d rest ih =>
    obtain ⟨sum, plus, h⟩ := bind_eq_ok_iff.1 h
    obtain ⟨later, accumulated, h⟩ := bind_eq_ok_iff.1 h
    obtain ⟨low, high, rfl⟩ := Load.plus_eq_ok_iff.1 plus
    split at h
    · cases h
      exact ih accumulated
    · cases h
      intro q mem
      rcases List.mem_cons.1 mem with rfl | mem
      · exact ⟨low, high⟩
      · exact ih accumulated q mem

/-- The load of every point of a profile was computed, so it is a word. -/
theorem holds_of_build (h : build bs = .ok p) :
    ∀ q ∈ p.points.toList, Width.w64.Holds q.load.low ∧ Width.w64.Holds q.load.high := by
  obtain ⟨dss, -, h⟩ := bind_eq_ok_iff.1 h
  obtain ⟨points, accumulated, h⟩ := bind_eq_ok_iff.1 h
  cases h
  exact holds_of_accumulate accumulated

/-- So is the sum of the contributions at every time. -/
theorem holds_loadAt_of_build (ordered : ∀ b ∈ bs, b.Ordered) (h : build bs = .ok p) (t : Int) :
    Width.w64.Holds (loadAt bs t).low ∧ Width.w64.Holds (loadAt bs t).high := by
  have represents := represents_of_build ordered h
  by_cases outside : p.Outside t
  · have zero : loadAt bs t = .zero := by
      have each (b : ActivityBounds) (mem : b ∈ bs) : b.contributionAt t = .zero :=
        (represents.contributionAt_of_outside ordered outside mem).1
      unfold loadAt
      rw [List.map_congr_left fun b mem => congrArg Load.low (each b mem),
        List.map_congr_left fun b mem => congrArg Load.high (each b mem)]
      simp [Load.zero]
    rw [zero]
    decide
  · obtain ⟨q, -, mem, load, -⟩ := represents.load_segmentContaining outside
    rw [← load]
    exact holds_of_build h q mem

/-- Without an activity the load of heights that are not negative is no greater, and still not
negative. -/
theorem others_between (nonneg : ∀ b ∈ bs, 0 ≤ b.heightMin ∧ 0 ≤ b.heightMax) {a : ActivityBounds}
    (mem : a ∈ bs) (t : Int) :
    (0 ≤ (loadAt bs t).low - (a.contributionAt t).low ∧
      (loadAt bs t).low - (a.contributionAt t).low ≤ (loadAt bs t).low) ∧
    0 ≤ (loadAt bs t).high - (a.contributionAt t).high ∧
      (loadAt bs t).high - (a.contributionAt t).high ≤ (loadAt bs t).high := by
  have each (b : ActivityBounds) (mem : b ∈ bs) :
      0 ≤ (b.contributionAt t).low ∧ 0 ≤ (b.contributionAt t).high := by
    have := nonneg b mem
    have := b.contributionAt_between t
    omega
  have low := sum_map_sub_le (f := fun _ => 0) (fun b mem => (each b mem).1) mem
  have high := sum_map_sub_le (f := fun _ => 0) (fun b mem => (each b mem).2) mem
  have own := each a mem
  simp only [List.map_const', List.sum_replicate, smul_zero] at low high
  unfold loadAt
  simp only
  omega

theorem othersFit_of_build (ordered : ∀ b ∈ bs, b.Ordered) (h : build bs = .ok p)
    (nonneg : ∀ b ∈ bs, 0 ≤ b.heightMin ∧ 0 ≤ b.heightMax) {a : ActivityBounds} (mem : a ∈ bs) :
    OthersFit bs a := by
  have both (t : Int) : Width.w64.Holds ((loadAt bs t).low - (a.contributionAt t).low) ∧
      Width.w64.Holds ((loadAt bs t).high - (a.contributionAt t).high) := by
    have sums := holds_loadAt_of_build ordered h t
    have others := others_between nonneg mem t
    simp only [Width.Holds, Width.least, Width.greatest] at sums ⊢
    omega
  exact ⟨fun t => (both t).1, fun t => (both t).2⟩

theorem segmentContaining_le (p : Profile) (t : Int) : p.segmentContaining t ≤ p.segments := by
  have := (List.takeWhile_sublist (p := fun q : TimePoint => decide (q.time ≤ t))
    (l := p.points.toList)).length_le
  rw [segmentContaining, segments, size_eq_length]
  omega

end Profile

/-! ## Activities with known lengths and heights -/

/-- The heights that the others leave to an activity fit a word at every time. -/
def Profile.MarginsFit (c : Capacity) (bs : List ActivityBounds) (a : ActivityBounds) : Prop :=
  ∀ t, Width.w64.Holds (c.minimum - ((Profile.loadAt bs t).high - (a.contributionAt t).high)) ∧
    Width.w64.Holds (c.maximum - ((Profile.loadAt bs t).low - (a.contributionAt t).low))

/-- Every difference of the capacity and some of the heights fits a word. -/
structure Capacity.MarginsHold (c : Capacity) (bs : List ActivityBounds) : Prop where
  minimum : Width.w64.SumsHold (c.minimum :: bs.map fun b => -b.heightMax)
  maximum : Width.w64.SumsHold (c.maximum :: bs.map fun b => -b.heightMin)

namespace Capacity

variable {c : Capacity} {bs : List ActivityBounds}

/-- So do the heights that the others leave. -/
theorem MarginsHold.marginsFit (h : c.MarginsHold bs) {a : ActivityBounds} (mem : a ∈ bs) :
    Profile.MarginsFit c bs a := by
  have sub := List.erase_sublist (a := a) (l := bs)
  intro t
  rw [Profile.loadAt_low_sub mem t, Profile.loadAt_high_sub mem t, Int.sub_eq_add_neg,
    Int.sub_eq_add_neg, ← sum_map_neg, ← sum_map_neg]
  constructor
  · refine (h.minimum.sublist ((sub.map _).cons_cons _)).holds_add_sum_map fun b _ => ?_
    have := (b.contributionAt_between t).2
    omega
  · refine (h.maximum.sublist ((sub.map _).cons_cons _)).holds_add_sum_map fun b _ => ?_
    have := (b.contributionAt_between t).1
    omega

/-- Up to `3 * 2 ^ 30` heights that are not negative leave such differences of a capacity that was
accepted. -/
theorem marginsHold_of_length_le (accepted : c.Accepted) (heights : ∀ b ∈ bs, b.HeightsHold)
    (nonneg : ∀ b ∈ bs, 0 ≤ b.heightMin ∧ 0 ≤ b.heightMax) (few : bs.length ≤ 3 * 2 ^ 30) :
    c.MarginsHold bs := by
  obtain ⟨m1, m2, m3, m4⟩ := accepted
  simp only [unlimitedMinimum, unlimitedMaximum] at m1 m4
  have margin {limit : Int} {f : ActivityBounds → Int} (low : -2305843009213693952 ≤ limit)
      (high : limit ≤ Width.w64.greatest) (each : ∀ b ∈ bs, -2147483648 ≤ f b ∧ f b ≤ 0) :
      Width.w64.SumsHold (limit :: bs.map f) := by
    have between {part : List Int} (sub : part.Sublist (bs.map f)) :
        -6917529027641081856 ≤ part.sum ∧ part.sum ≤ 0 := by
      have sums := sum_between fun v mem => by
        obtain ⟨b, listed, rfl⟩ := List.mem_map.1 (sub.subset mem)
        exact each b listed
      have length := sub.length_le
      rw [List.length_map] at length
      omega
    intro part mem
    simp only [Width.Holds, Width.least, Width.greatest] at *
    rcases List.sublist_cons_iff.1 (List.mem_sublists.1 mem) with sub | ⟨rest, rfl, sub⟩
    · have := between sub
      omega
    · have := between sub
      rw [List.sum_cons]
      omega
  constructor
  · refine margin m1 m2 fun b mem => ?_
    have := nonneg b mem
    have := (heights b mem).max
    simp only [Width.Holds, Width.least, Width.greatest] at this
    omega
  · refine margin (by omega) (by simp only [Width.greatest]; omega) fun b mem => ?_
    have := nonneg b mem
    have := (heights b mem).min
    simp only [Width.Holds, Width.least, Width.greatest] at this
    omega

end Capacity

namespace TimeTable

variable {t : TimeTable} {bs : List ActivityBounds} {wide : Prop}

/-- The profile of activities with known lengths and heights has passed the test. The loads of the
others are words, and what they leave is one, too, unless `wide` holds. -/
structure Steady (t : TimeTable) (bs : List ActivityBounds) (wide : Prop) : Prop where
  represents : t.profile.Represents bs
  consistent : t.profile.isConsistent t.capacity.minimum t.capacity.maximum = true
  settled : ∀ b ∈ bs, b.toBounds.Settled
  length : ∀ b ∈ bs, b.lengthMin = b.lengthMax
  height : ∀ b ∈ bs, b.heightMin = b.heightMax
  fit : ∀ b ∈ bs, Profile.OthersFit bs b
  margins : wide ∨ ∀ b ∈ bs, Profile.MarginsFit t.capacity bs b

/-- What is left of an interval that was placed by the sweeps: some start is left from which the
activity, over its whole length, covers no overloaded time. -/
structure Placed (t : TimeTable) (b : ActivityBounds) (w : Bounds) : Prop where
  tightens : b.toBounds.Tightens w
  spare : ∃ start, w.startMin ≤ start ∧ start + b.lengthMin ≤ w.endMax ∧
    ¬ t.Blocked b start (start + b.lengthMin)

theorem filter_of_room {c : Captured} (room : c.bounds.startMin < c.bounds.endMax) :
    t.filter ⟨false, false⟩ c = (do
      t.place c
      if (← Propagation.interval c.activity.interval).isAbsent then
        Propagation.say (.fitsNowhere c.activity.interval)) := by
  have opened : ¬ c.bounds.startMin ≥ c.bounds.endMax := by omega
  simp only [filter, opened, if_false, Bool.or_self, Bool.false_and, Bool.false_eq_true]

namespace Steady

variable (h : t.Steady bs wide)
include h

section Activity

variable {b : ActivityBounds} (mem : b ∈ bs)
include mem

/-- The load of the others in a segment, and the height that they leave. -/
theorem loadWithout_spec {k : Nat} {q : TimePoint} {stop : Int}
    (stretch : t.profile.Stretch k q stop) : ∃ others, t.loadWithout b k = .ok others ∧
      others = ⟨q.load.low - (b.contributionAt q.time).low,
        q.load.high - (b.contributionAt q.time).high⟩ ∧
      (t.capacity.allowedHeights others =
          .ok ⟨t.capacity.minimum - others.high, t.capacity.maximum - others.low⟩ ∨
        wide ∧ t.capacity.allowedHeights others = .error .subtractionOverflow) := by
  refine ⟨_, loadWithout_of_othersFit h.represents (h.fit b mem) stretch, rfl, ?_⟩
  rcases t.capacity.allowedHeights_cases _ with allowed | ⟨overflows, faults⟩
  · exact .inl allowed
  · refine .inr ⟨h.margins.resolve_right fun margins => overflows ?_, faults⟩
    rw [(h.represents.load_of_mem stretch.mem).1]
    exact margins b mem q.time

/-- Where the activity certainly executes, the others leave its height. -/
theorem height_of_isMandatoryAt {k : Nat} {q : TimePoint} {stop : Int}
    (stretch : t.profile.Stretch k q stop) (certain : b.isMandatoryAt q.time = true)
    {others : Load} (without : t.loadWithout b k = .ok others) :
    t.capacity.minimum - others.high ≤ b.heightMin ∧
      b.heightMin ≤ t.capacity.maximum - others.low := by
  obtain ⟨_, without', rfl, -⟩ := h.loadWithout_spec mem stretch
  obtain rfl := Except.ok.inj (without'.symm.trans without)
  have busy := Profile.overlappingAt_pos mem certain
  have test := List.all_eq_true.1 h.consistent q stretch.mem
  rw [(h.represents.load_of_mem stretch.mem).2] at test
  have own : b.contributionAt q.time = ⟨b.heightMin, b.heightMax⟩ := if_pos certain
  have fixed := h.height b mem
  simp only [Load.violates, Bool.or_eq_true, beq_iff_eq, Bool.not_eq_true', Bool.or_eq_false_iff,
    decide_eq_false_iff_not] at test
  rw [own]
  simp only
  omega

/-- In a segment that is not overloaded, the others leave the height. -/
theorem height_of_not_overloaded {k : Nat} (spare : t.isOverloadedWith b k ≠ .ok true)
    {others : Load} (without : t.loadWithout b k = .ok others) :
    t.capacity.minimum - others.high ≤ b.heightMin ∧
      b.heightMin ≤ t.capacity.maximum - others.low := by
  have fixed := h.height b mem
  simp only [isOverloadedWith, without, bind, Except.bind, pure, Except.pure, ne_eq,
    Except.ok.injEq, Capacity.excludes, Load.violates, Bool.or_eq_true, decide_eq_true_eq] at spare
  omega

/-- From a start on that covers no overloaded time, all segments leave the height. -/
theorem fitFrom_spec {windowStart windowEnd start : Int}
    (clear : ¬ t.Blocked b start (start + b.lengthMin)) (long : 0 < b.lengthMin)
    (begins : windowStart ≤ start) (ends : start + b.lengthMin ≤ windowEnd)
    (opens : b.startMin ≤ windowStart) (closes : windowEnd ≤ b.endMax) :
    (∃ f, t.fitFrom b windowStart windowEnd b.heightMin b.heightMin
        (t.profile.segments - t.profile.segmentContaining windowStart)
        (t.profile.segmentContaining windowStart) ⟨none, 0, 0⟩ = .ok f ∧
      b.lengthMin ≤ f.longest ∧ ∃ hull, f.heights = some hull ∧ hull.low ≤ b.heightMin ∧
        b.heightMin ≤ hull.high) ∨
    wide ∧ t.fitFrom b windowStart windowEnd b.heightMin b.heightMin
        (t.profile.segments - t.profile.segmentContaining windowStart)
        (t.profile.segmentContaining windowStart) ⟨none, 0, 0⟩ = .error .subtractionOverflow := by
  have ascending := h.represents.ascending
  obtain ⟨⟨first, mem₁, eq₁⟩, ⟨last, mem₂, eq₂⟩, -⟩ := h.represents.changes b mem (by omega)
  obtain ⟨lt, q, stop, stretch, le, after⟩ := Profile.segmentContaining_spec ascending
    (t := windowStart) ⟨first, mem₁, by omega⟩ ⟨last, mem₂, by omega⟩
  have fresh : (⟨none, 0, 0⟩ : Fit).Covers start b.lengthMin b.heightMin q.time :=
    ⟨Int.le_refl _, fun late => by omega, fun late => by omega, fun late => by omega⟩
  refine fitFrom_cases ascending ⟨last, mem₂, by omega⟩ (fun k r stop' stretch' => ?_) long begins
    ends (Int.le_refl _) (Int.le_refl _) (by omega) (fun q' stop' stretch' => ?_)
    (fun none => by omega) fresh
  · obtain ⟨others, without, -, limits⟩ := h.loadWithout_spec mem stretch'
    refine limits.imp (fun allowed => ⟨others, _, without, allowed, fun meets => ?_⟩)
      fun overflows => ⟨overflows.1, others, without, overflows.2⟩
    refine h.height_of_not_overloaded mem (fun overloaded => clear ?_) without
    have := stretch'.lt
    exact ⟨max r.time start, by omega, by omega,
      overloadedAt_of_stretch stretch' overloaded (by omega) (by omega)⟩
  · obtain ⟨rfl, rfl⟩ := stretch.unique stretch'
    exact ⟨rfl, after⟩

end Activity

/-! ## Rules that change nothing -/

section Rules

open Propagation

variable {c : Captured} (mem : c.bounds ∈ bs) {s : Store}
  (lower : c.activity.height.lower s.domains = .ok c.bounds.heightMin)
  (upper : c.activity.height.upper s.domains = .ok c.bounds.heightMin)
include mem lower upper

omit h mem in
theorem follows_restrict {range : Load} (le : range.low ≤ c.bounds.heightMin)
    (ge : c.bounds.heightMin ≤ range.high) :
    Follows wide (pure ()) (restrict c.activity.height range) s :=
  .inl (exec_restrict_of_between lower upper (Int.le_refl _) le ge)

theorem follows_coverFrom {left k : Nat} (within : k + left ≤ t.profile.segments) :
    Follows wide (pure ()) (t.coverFrom c ⟨true, false⟩ left k) s := by
  induction left generalizing k with
  | zero => exact .refl _ _
  | succ left ih =>
    obtain ⟨q, stop, stretch⟩ := Profile.exists_stretch h.represents.ascending
      (show k < t.profile.segments by omega)
    obtain ⟨others, without, -, limits⟩ := h.loadWithout_spec mem stretch
    unfold coverFrom
    rw [liftM_bind_of_eq_ok stretch.span]
    simp only
    split
    · exact .refl _ _
    rw [liftM_bind_of_eq_ok stretch.point, liftM_bind_of_eq_ok without]
    split
    · rename_i certain
      refine Follows.when (fun _ => ?_) (ih (by omega))
      obtain ⟨low, high⟩ := h.height_of_isMandatoryAt mem stretch certain without
      unfold tightenHeight
      rcases limits with allowed | ⟨possible, overflows⟩
      · rw [liftM_bind_of_eq_ok allowed]
        exact follows_restrict lower upper low high
      · exact .of_overflow possible overflows
    · simp only [Bool.false_and, Bool.false_eq_true, if_false]
      exact ih (by omega)

/-- Where the activity certainly executes, its height is allowed. -/
theorem follows_cover : Follows wide (pure ()) (t.cover c ⟨true, false⟩) s := by
  have := t.profile.segmentContaining_le c.bounds.startMin
  exact h.follows_coverFrom mem lower upper (by omega)

/-- A placed activity has the height and the length of the segments that it can cover. -/
theorem follows_fit {w : Interval} (row : s.domains.interval c.activity.interval = .ok w)
    (placed : t.Placed c.bounds w.toBounds) (long : 0 < c.bounds.lengthMin) :
    Follows wide (pure ()) (t.fit c) s := by
  obtain ⟨start, begins, ends, clear⟩ := placed.spare
  have length := placed.tightens.le_lengthMax
  have fixed := h.length _ mem
  unfold TimeTable.fit
  refine Follows.inspect_bind row (Follows.inspect_bind lower (Follows.inspect_bind upper ?_))
  rw [if_neg (by omega)]
  rcases h.fitFrom_spec mem clear long begins ends placed.tightens.startMin_le
      placed.tightens.le_endMax with
    ⟨f, found, longest, hull, known, low, high⟩ | ⟨possible, overflows⟩
  · rw [liftM_bind_of_eq_ok found]
    simp only [known]
    rw [if_neg (by omega)]
    exact follows_restrict lower upper low high
  · exact .of_overflow possible overflows

end Rules

/-! ## Where the sweeps leave an interval -/

/-- If the start is moved to `r`, and the end to `e`, from where on and up to where no overloaded
time is covered, the activity is placed, unless no placement is left. -/
theorem placed_of_admits {b : ActivityBounds} (mem : b ∈ bs) {w : Bounds} {r e : Int}
    (tightens : b.toBounds.Tightens w) (settled : w.Settled) (least : b.startMin ≤ r)
    (clear : r ≤ b.startMax → ¬ t.Blocked b r (b.coversTo r))
    (kept : ∀ start length, w.Admits start length ↔ b.Admits start length ∧
      (r > b.startMin → Width.w32.saturate r ≤ start) ∧
      (e < b.endMax → start + length ≤ Width.w32.saturate e)) : t.Placed b w := by
  obtain ⟨start, length, admits⟩ := settled.exists_admits
  obtain ⟨⟨a1, a2, a3, a4, a5, a6⟩, begins, ends⟩ := (kept start length).1 admits
  obtain ⟨s1, s2, s3, s4, s5, s6, s7, s8, s9, s10, s11, s12⟩ := h.settled b mem
  have fixed := h.length b mem
  simp only [horizon] at s1 s2
  simp only [Width.saturate, Width.least, Width.greatest] at begins ends kept
  have early : r ≤ start := by omega
  have first : w.Admits r b.lengthMin := by
    refine (kept r _).2 ⟨⟨least, by omega, by omega, by omega, Int.le_refl _, by omega⟩,
      fun _ => by omega, fun _ => by omega⟩
  refine ⟨tightens, r, first.startMin_le, first.le_endMax, ?_⟩
  rintro ⟨time, begun, upTo, overloaded⟩
  exact clear (by omega) ⟨time, begun, by unfold ActivityBounds.coversTo; omega, overloaded⟩

open Propagation in
/-- The sweeps touch the interval only, and if they succeed, the activity is placed or absent. -/
theorem place_spec {c : Captured} (mem : c.bounds ∈ bs)
    (room : c.bounds.startMin < c.bounds.endMax) {s : Store} (wellFormed : s.domains.WellFormed)
    {v : Interval} (row : s.domains.interval c.activity.interval = .ok v)
    (same : c.bounds.toBounds = v.toBounds) :
    ∃ status s' w, (t.place c).exec s = .ok (status, s') ∧
      s.Filtered c.activity.interval v w s' ∧
      (status = .ok () → w.isAbsent = false → t.Placed c.bounds w.toBounds) := by
  obtain ⟨r, first, least, -, clear⟩ := earliestStart_spec h.represents mem room (h.fit _ mem)
  obtain ⟨e, last, -⟩ := latestEnd_spec h.represents mem room (h.fit _ mem)
  obtain ⟨status₁, s₁, w₁, ran₁, filtered₁, kept₁⟩ := exists_filtered wellFormed row
    (r > c.bounds.startMin) .startMin (Width.w32.saturate r)
  obtain ⟨status₂, s₂, w₂, ran₂, filtered₂, kept₂⟩ := exists_filtered filtered₁.wellFormed
    filtered₁.row (e < c.bounds.endMax) .endMax (Width.w32.saturate e)
  have steps : (t.place c).exec s = ((if r > c.bounds.startMin then
      tighten c.activity.interval .startMin (Width.w32.saturate r) else pure ()) >>= fun _ =>
        if e < c.bounds.endMax then
          tighten c.activity.interval .endMax (Width.w32.saturate e) else pure ()).exec s := by
    unfold place
    rw [liftM_bind_of_eq_ok first]
    simp only [liftM_bind_of_eq_ok last]
    exact exec_when
  rw [exec_bind, ran₁] at steps
  cases status₁ with
  | error cause => exact ⟨_, s₁, w₁, steps, filtered₁, by rintro ⟨⟩⟩
  | ok =>
    simp only [ran₂] at steps
    refine ⟨_, s₂, w₂, steps, filtered₁.trans filtered₂, fun succeeds there => ?_⟩
    have narrows := filtered₁.narrows.trans filtered₂.narrows
    refine h.placed_of_admits (e := e) mem (same ▸ narrows.tightens)
      (filtered₂.wellFormed.interval _ w₂ filtered₂.row) least clear fun start length => ?_
    have both := (kept₂ succeeds (.placed start length)).trans
      (and_congr_left' (kept₁ rfl (.placed start length)))
    have present : w₂.presence ≠ .absent := by simpa [Interval.isAbsent] using there
    have before : v.presence ≠ .absent := fun absent => by
      have := narrows.isAbsent (by simp [Interval.isAbsent, absent])
      rw [there] at this
      cases this
    simpa only [Interval.Admits, Update.Keeps, Bound.Keeps, present, before, same, and_assoc, ne_eq,
      not_false_eq_true, true_and] using both

section Filter

open Propagation

variable {c : Captured} (mem : c.bounds ∈ bs) {s : Store} (wellFormed : s.domains.WellFormed)
  (known : c.activity.bounds s.domains = .ok c.bounds)
include mem wellFormed known

/-- Without the rules filtering touches the interval only. -/
theorem exists_filter : ∃ status s' v w, (t.filter ⟨false, false⟩ c).exec s = .ok (status, s') ∧
    s.Filtered c.activity.interval v w s' := by
  obtain ⟨v, row, same, -⟩ := Activity.bounds_eq_ok known
  by_cases room : c.bounds.startMin < c.bounds.endMax
  · obtain ⟨status, s', w, ran, filtered, -⟩ := h.place_spec mem room wellFormed row same
    rw [filter_of_room room, exec_bind, ran]
    cases status with
    | error cause => exact ⟨_, s', v, w, rfl, filtered⟩
    | ok =>
      simp only [exec_bind, interval, exec_inspect, filtered.row, Except.map]
      split
      · exact ⟨_, _, v, w, rfl, filtered.wellFormed, filtered.elsewhere, filtered.row,
          filtered.narrows⟩
      · exact ⟨_, s', v, w, rfl, filtered⟩
  · unfold filter
    rw [if_pos (by omega)]
    exact ⟨_, s, v, v, exec_pure () s, .refl wellFormed row⟩

/-- With the rules for heights and lengths, and without them, an activity is filtered alike. -/
theorem follows_filter :
    Follows wide (t.filter ⟨false, false⟩ c) (t.filter ⟨true, false⟩ c) s := by
  obtain ⟨v, row, same, lower, upper, -⟩ := Activity.bounds_eq_ok known
  rw [← h.height _ mem] at upper
  by_cases room : c.bounds.startMin < c.bounds.endMax
  · obtain ⟨status, s', w, ran, filtered, placed⟩ := h.place_spec mem room wellFormed row same
    have opened : ¬ c.bounds.startMin ≥ c.bounds.endMax := by omega
    rw [filter_of_room room]
    simp only [filter, opened, if_false, Bool.or_false, Bool.true_and, if_true]
    refine (Follows.refl _ s).bind fun _ t₁ ran' => ?_
    rw [ran] at ran'
    cases ran'
    have lower' := filtered.bound lower
    have upper' := filtered.bound upper
    refine (Follows.refl _ s').bind fun u t₂ read => ?_
    obtain ⟨u', row', eq, rfl⟩ := exec_inspect_eq_ok_iff.1 read
    rw [filtered.row] at row'
    cases row'
    cases eq
    split
    · exact .refl _ _
    · rename_i there
      have placed := placed rfl (by simpa using there)
      refine (h.follows_cover mem lower' upper').seq ?_
      split
      · rename_i long
        simp only [Bool.and_eq_true, decide_eq_true_eq] at long
        refine Follows.inspect_bind filtered.row ?_
        split
        · exact h.follows_fit mem lower' upper' filtered.row placed long.2
        · exact .refl _ _
      · exact .refl _ _
  · have closed : c.bounds.startMin ≥ c.bounds.endMax := by omega
    simp only [filter, closed, if_true]
    exact .refl _ _

end Filter

open Propagation in
/-- So are activities on different intervals, one after the other. -/
theorem follows_forM {l : List Captured} (mem : ∀ c ∈ l, c.bounds ∈ bs)
    (distinct : (l.map (·.activity.interval)).Nodup) {s : Store}
    (wellFormed : s.domains.WellFormed)
    (known : ∀ c ∈ l, c.activity.bounds s.domains = .ok c.bounds) :
    ∃ status s', (l.forM (t.filter ⟨false, false⟩)).exec s = .ok (status, s') ∧
      Follows wide (l.forM (t.filter ⟨false, false⟩)) (l.forM (t.filter ⟨true, false⟩)) s := by
  induction l generalizing s with
  | nil => exact ⟨_, s, exec_pure () s, .refl _ _⟩
  | cons c l ih =>
    obtain ⟨others, distinct⟩ := List.nodup_cons.1 distinct
    have inside := mem c List.mem_cons_self
    have here := known c List.mem_cons_self
    obtain ⟨status, s', v, w, ran, filtered⟩ := h.exists_filter inside wellFormed here
    have follows := h.follows_filter inside wellFormed here
    -- The other activities are on other intervals, so what was captured of them still holds.
    obtain ⟨status', s'', rest, follows'⟩ :=
      ih (fun b inside => mem b (List.mem_cons_of_mem _ inside)) distinct filtered.wellFormed
        fun b inside => filtered.bounds (fun same => others (List.mem_map.2 ⟨b, inside, same⟩))
          (known b (List.mem_cons_of_mem _ inside))
    have step (rules : Rules) : (c :: l).forM (t.filter rules) =
        (t.filter rules c >>= fun _ => l.forM (t.filter rules)) := rfl
    rw [step, step]
    cases status with
    | error cause =>
      refine ⟨_, s', by rw [exec_bind, ran], follows.bind fun _ t₁ ran' => ?_⟩
      rw [ran] at ran'
      cases ran'
    | ok =>
      refine ⟨status', s'', by rw [exec_bind, ran]; exact rest, follows.bind fun _ t₁ ran' => ?_⟩
      rw [ran] at ran'
      cases ran'
      exact follows'

end Steady

end TimeTable

/-! ## Runs of a resource -/

namespace Resource

open Propagation

/-- A run of the resource begins: the activities that are done leave the active set, and those that
stay are captured. -/
structure Begins (r : Resource) (s : Store) (r' : Resource) (t : Store) (cs : List Captured) :
    Prop where
  dropped : ∃ start stop n, s.cells.read r.spanStart = .ok start ∧
    s.cells.read r.spanStop = .ok stop ∧ r.active.length s.cells = .ok n ∧
    (dropDone ⟨start, stop⟩ n r).run s = .ok (r', t)
  captured : r'.capture.exec t = .ok (.ok cs, t)

/-- Filters the captured activities that are not fixed, with the rules for heights and lengths or
without them. -/
def filterWith (r : Resource) (profile : Profile) (cs : List Captured) (heights : Bool) :
    Propagation Unit :=
  (cs.filter fun b => !b.bounds.isFixed).forM
    (TimeTable.filter ⟨profile, r.capacity⟩ ⟨heights, (r.rules (cs.map Captured.bounds)).needed⟩)

variable {r r' : Resource} {s t : Store} {cs : List Captured}

/-- A run decides by the captured bounds whether the rules apply. -/
theorem filterWith_rules (profile : Profile) :
    r.filterWith profile cs (r.rules (cs.map Captured.bounds)).heights =
      (cs.filter fun b => !b.bounds.isFixed).forM
        (TimeTable.filter ⟨profile, r.capacity⟩ (r.rules (cs.map Captured.bounds))) := rfl

/-- Capturing changes nothing, and what is captured are the bounds of the activities. -/
theorem capture_spec {t' : Store} {result : Except Inconsistency (List Captured)}
    (ran : r.capture.exec t = .ok (result, t')) : t' = t ∧ ∃ cs, result = .ok cs ∧
      ∀ c ∈ cs, c.activity.bounds t.domains = .ok c.bounds := by
  rw [capture, exec_bind, exec_get] at ran
  obtain ⟨members, -, ran⟩ := exec_liftM_bind_eq_ok_iff.1 ran
  obtain ⟨unchanged, cs, eq, pairs⟩ := captured_of_exec rfl ran
  refine ⟨unchanged, cs, eq, fun c mem => ?_⟩
  obtain ⟨j, inside, rfl⟩ := List.getElem_of_mem mem
  exact (List.Forall₂.get pairs (pairs.length_eq ▸ inside) inside).2

/-- Every run that does not fault begins. -/
theorem exists_begins_of_run {context : Context} {status : Status} {s' : Store}
    (ran : (run context r).run s = .ok ((r', status), s')) : ∃ t cs, r.Begins s r' t cs := by
  obtain ⟨start, stop, n, t, first, last, counted, dropped, propagated⟩ := run_spec ran
  obtain ⟨result, t', captured⟩ : ∃ result t', r'.capture.exec t = .ok (result, t') := by
    rcases exec_bind_eq_ok_iff.1 propagated with ⟨cs, t', captured, -⟩ | ⟨cause, captured, -⟩ <;>
      exact ⟨_, _, captured⟩
  obtain ⟨rfl, cs, rfl, -⟩ := capture_spec captured
  exact ⟨_, cs, ⟨start, stop, n, first, last, counted, dropped⟩, captured⟩

theorem Begins.domains (h : r.Begins s r' t cs) : t.domains = s.domains := by
  obtain ⟨start, stop, n, -, -, -, dropped⟩ := h.dropped
  obtain ⟨active, cells, -, -, rfl⟩ := dropDone_spec dropped
  rfl

theorem Begins.bounds (h : r.Begins s r' t cs) :
    ∀ c ∈ cs, c.activity.bounds t.domains = .ok c.bounds := by
  obtain ⟨-, cs', eq, known⟩ := capture_spec h.captured
  cases eq
  exact known

/-- Captured activities with known lengths and heights that are not negative, next to a profile that
passed the test. What the others leave can overflow only if some difference of the capacity and
heights does not fit a word. -/
theorem steady_of_bounds {d : Domains} {capacity : Capacity} {profile : Profile}
    (wellFormed : d.WellFormed) (known : ∀ c ∈ cs, c.activity.bounds d = .ok c.bounds)
    (lengths : allLengthsFixed (cs.map Captured.bounds) = true)
    (heights : allHeightsFixed (cs.map Captured.bounds) = true)
    (positive : allPositive (cs.map Captured.bounds) = true)
    (made : Profile.build (cs.map Captured.bounds) = .ok profile)
    (consistent : profile.isConsistent capacity.minimum capacity.maximum = true) :
    TimeTable.Steady ⟨profile, capacity⟩ (cs.map Captured.bounds)
      (¬ capacity.MarginsHold (cs.map Captured.bounds)) := by
  obtain ⟨a, admits⟩ := wellFormed.exists_admits
  have allows (c : Captured) (mem : c ∈ cs) : c.Allows a :=
    Activity.allows_of_bounds wellFormed (known c mem) admits
  have settled (b : ActivityBounds) (mem : b ∈ cs.map Captured.bounds) : b.toBounds.Settled := by
    obtain ⟨c, mem', rfl⟩ := List.mem_map.1 mem
    exact (allows c mem').settled
  have ordered (b : ActivityBounds) (mem : b ∈ cs.map Captured.bounds) : b.Ordered :=
    ⟨(settled b mem).start_le, (settled b mem).end_le⟩
  have fixed (b : ActivityBounds) (mem : b ∈ cs.map Captured.bounds) :
      b.heightMin = b.heightMax := by simpa using List.all_eq_true.1 heights b mem
  have nonneg (b : ActivityBounds) (mem : b ∈ cs.map Captured.bounds) :
      0 ≤ b.heightMin ∧ 0 ≤ b.heightMax := by
    have least : 0 ≤ b.heightMin := by simpa using List.all_eq_true.1 positive b mem
    exact ⟨least, fixed b mem ▸ least⟩
  refine ⟨Profile.represents_of_build ordered made, consistent, settled,
    fun b mem => by simpa using List.all_eq_true.1 lengths b mem, fixed,
    fun b mem => Profile.othersFit_of_build ordered made nonneg mem, ?_⟩
  by_cases margins : capacity.MarginsHold (cs.map Captured.bounds)
  · exact .inr fun b mem => margins.marginsFit mem
  · exact .inl margins

/-- Consider a run of a resource without a lower limit, in which the captured activities are on
different intervals, with known lengths and known heights that are not negative, and the profile
passes the test. Filtering the activities that are not fixed then has the same outcome with the
rules for heights and lengths as without them, and leaves the same store. Only the rules compute how
much the others leave; this can overflow if some difference of the capacity and heights does not fit
a word. -/
theorem shortcut_agrees {c : State} {op : Operation} {p : PropagatorId} {f : Engine Rule}
    {profile : Profile} (reachable : Reachable c) (valid : op.Valid c.solver)
    (calls : op.Calls c.solver p f) (row : f.propagators.get? p.index = some (.resource r))
    (begins : r.Begins f.store r' t cs) (unlimited : r'.capacity.hasMinimum = false)
    (distinct : (cs.map (·.activity.interval)).Nodup)
    (lengths : allLengthsFixed (cs.map Captured.bounds) = true)
    (heights : allHeightsFixed (cs.map Captured.bounds) = true)
    (positive : allPositive (cs.map Captured.bounds) = true)
    (made : Profile.build (cs.map Captured.bounds) = .ok profile)
    (consistent : profile.isConsistent r'.capacity.minimum r'.capacity.maximum = true) :
    ∃ status u, (r'.filterWith profile cs false).exec t = .ok (status, u) ∧
      ((r'.filterWith profile cs true).exec t = .ok (status, u) ∨
        ¬ r'.capacity.MarginsHold (cs.map Captured.bounds) ∧
          (r'.filterWith profile cs true).exec t = .error .subtractionOverflow) := by
  obtain ⟨sane, -⟩ := Guarantee.tracks_of_call_of_reachable Rule.family reachable valid calls row
  have wellFormed : t.domains.WellFormed := begins.domains ▸ sane.wellFormed_now
  have steady := steady_of_bounds wellFormed begins.bounds lengths heights positive made consistent
  have idle : (r'.rules (cs.map Captured.bounds)).needed = false := by
    simp [rules, unlimited, positive]
  unfold filterWith
  rw [idle]
  obtain ⟨status, u, ran, follows⟩ := steady.follows_forM
    (fun b mem => List.mem_map_of_mem (List.mem_filter.1 mem).1)
    (distinct.sublist (List.filter_sublist.map _)) wellFormed
    fun b mem => begins.bounds b (List.mem_filter.1 mem).1
  exact ⟨status, u, ran, follows.imp_left fun same => same.trans ran⟩

end Resource

namespace Cumulative

/-- The resource of the constraint on a pair of intervals is posted. -/
def pairPosting : Operation :=
  .post (.resource pairConstraint.activities pairResource.capacity .all)

/-- The engine on which it is called for the first time. -/
def pairAsked : Engine Rule := pairPosting.called pairStart.solver

/-- What is captured then: the first interval may start from `0` to `8`, the second one is fixed. -/
def pairCaptured : List Captured :=
  [⟨⟨⟨0⟩, pairHeight⟩, ⟨⟨0, 8, 5, 13, 5, 5⟩, 1, 1, true, false⟩⟩,
    ⟨⟨⟨1⟩, pairHeight⟩, ⟨⟨2, 2, 7, 7, 5, 5⟩, 1, 1, true, true⟩⟩]

def pairProfile : Profile :=
  ⟨.ofList [⟨0, ⟨0, 1⟩, 0⟩, ⟨2, ⟨1, 2⟩, 1⟩, ⟨7, ⟨0, 1⟩, 0⟩, ⟨13, ⟨0, 0⟩, 0⟩]⟩

/-- With the rules or without them, the first interval starts when the second one has ended. -/
theorem shortcut_agrees_pair :
    pairResource.Begins pairAsked.store pairResource pairAsked.store pairCaptured ∧
      ∃ u, (pairResource.filterWith pairProfile pairCaptured false).exec pairAsked.store =
          .ok (.ok (), u) ∧
        (pairResource.filterWith pairProfile pairCaptured true).exec pairAsked.store =
          .ok (.ok (), u) ∧
        u.domains.interval ⟨0⟩ = .ok ⟨⟨7, 8, 12, 13, 5, 5⟩, .present⟩ := by
  have called : ((pairPosting.caller? pairStart.solver).map Prod.fst,
      pairAsked.propagators.get? 0) = (some ⟨0⟩, some (.resource pairResource)) := by cbv
  have cells : (pairAsked.store.cells.read pairResource.spanStart,
      pairAsked.store.cells.read pairResource.spanStop,
      pairResource.active.length pairAsked.store.cells) =
        (.ok Width.w64.least, .ok Width.w64.greatest, .ok 2) := by cbv
  simp only [Prod.mk.injEq] at called cells
  have begins : pairResource.Begins pairAsked.store pairResource pairAsked.store pairCaptured :=
    ⟨⟨_, _, _, cells.1, cells.2.1, cells.2.2, by cbv⟩, by cbv⟩
  have made : Profile.build (pairCaptured.map Captured.bounds) = .ok pairProfile := by cbv
  have moved : ((pairResource.filterWith pairProfile pairCaptured false).exec pairAsked.store).map
      (fun r => (r.1, r.2.domains.interval ⟨0⟩)) =
        .ok (.ok (), .ok ⟨⟨7, 8, 12, 13, 5, 5⟩, .present⟩) := by cbv
  obtain ⟨status, u, simple, full⟩ := Resource.shortcut_agrees (reachable_reach _)
    (show pairPosting.Valid pairStart.solver by decide) (Operation.calls_of_caller? called.1)
    called.2 begins (by decide) (by decide) (by decide) (by decide) (by decide) made (by cbv)
  simp only [simple, Except.map, Except.ok.injEq, Prod.mk.injEq] at moved
  obtain ⟨rfl, row⟩ := moved
  have margins : pairResource.capacity.MarginsHold (pairCaptured.map Captured.bounds) :=
    Capacity.marginsHold_of_length_le ⟨by decide, by decide, by decide, by decide⟩
      (by decide) (by decide) (by decide)
  exact ⟨begins, u, simple, full.resolve_right fun overflows => overflows.1 margins, row⟩

end Cumulative

end Scheduling
