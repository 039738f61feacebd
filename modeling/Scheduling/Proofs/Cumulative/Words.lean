import Scheduling.Proofs.Cumulative.Shortcut
import Scheduling.Proofs.Cumulative.Window

/-!
# The numbers of time-table filtering

All times lie within the horizon, and next to fewer than `2 ^ 30` activities no load is greater than
`2 ^ 61`. What the others leave of a capacity is the only number that could still be too large, as
the lower limit may be any word. Where something certainly executes, the test of the profile has
shown that the load reaches this limit; elsewhere the others may all be absent, and nothing is taken
away from it.

Results:
* `Profile.changesFit`: the changes of a profile can be summed up in any order.
* `TimeTable.Checked.fitFrom`: the fit of an activity, with every sum checked.
* `TimeTable.Tested`: a profile that has passed the test.
* `TimeTable.Tested.inWords`: what is computed with such a profile does not fault, and is the same
  with every sum checked.
-/

namespace Scheduling

/-! ## Changes of a profile -/

namespace Delta

variable {f : Delta → Int}

/-- The sum of the sizes of a quantity. -/
def weight (f : Delta → Int) (ds : List Delta) : Nat := (ds.map fun d => (f d).natAbs).sum

theorem weight_perm {ds es : List Delta} (h : ds.Perm es) : weight f ds = weight f es :=
  List.Perm.sum_eq (h.map _)

theorem weight_append (ds es : List Delta) : weight f (ds ++ es) = weight f ds + weight f es := by
  simp [weight]

theorem natAbs_sum_le_weight (f : Delta → Int) (ds : List Delta) :
    (ds.map f).sum.natAbs ≤ weight f ds := by
  induction ds with
  | nil => exact Nat.le_refl 0
  | cons d ds ih =>
    simp only [weight, List.map_cons, List.sum_cons] at ih ⊢
    omega

/-- However changes are arranged, the sum over the first ones is no greater than their weight. -/
theorem holds_sum_of_weight {ds before after : List Delta} (light : weight f ds ≤ 2 ^ 62)
    (perm : (before ++ after).Perm ds) : Width.w64.Holds (before.map f).sum := by
  have part := natAbs_sum_le_weight f before
  rw [← weight_perm perm, weight_append] at light
  simp only [Width.Holds, Width.least, Width.greatest]
  omega

end Delta

/-- The changes of an activity are no heavier than four heights. -/
theorem ActivityBounds.weight_deltas_le {b : ActivityBounds} {ds : List Delta}
    (heights : b.HeightsHold) (h : b.deltas = .ok ds) :
    Delta.weight (·.load.low) ds ≤ 2 ^ 32 ∧ Delta.weight (·.load.high) ds ≤ 2 ^ 32 ∧
      Delta.weight Delta.overlap ds ≤ 2 := by
  obtain ⟨⟨l1, l2⟩, u1, u2⟩ := heights
  simp only [Width.least, Width.greatest] at l1 l2 u1 u2
  have low : b.possible.low = min 0 b.heightMin := rfl
  have high : b.possible.high = max 0 b.heightMax := rfl
  rcases deltas_eq_ok h with ⟨-, rfl⟩ | ⟨-, -, rfl⟩ | ⟨-, -, rfl⟩
  · simp [Delta.weight]
  · simp only [Delta.weight, List.map_cons, List.map_nil, List.sum_cons, List.sum_nil]
    omega
  · simp only [Delta.weight, List.map_cons, List.map_nil, List.sum_cons, List.sum_nil]
    omega

namespace Profile

/-- The changes that some activities make can be computed, and they can be summed up in any order
without leaving a 64-bit word. -/
def ChangesFit (bs : List ActivityBounds) : Prop :=
  ∃ dss, bs.mapM ActivityBounds.deltas = .ok dss ∧
    ∀ before after : List Delta, (before ++ after).Perm dss.flatten →
      Width.w64.Holds (before.map (·.load.low)).sum ∧
        Width.w64.Holds (before.map (·.load.high)).sum ∧
          Width.w64.Holds (before.map Delta.overlap).sum

theorem weight_flatten_le {bs : List ActivityBounds} (heights : ∀ b ∈ bs, b.HeightsHold)
    {dss : List (List Delta)} (made : bs.mapM ActivityBounds.deltas = .ok dss) :
    Delta.weight (·.load.low) dss.flatten ≤ 2 ^ 32 * bs.length ∧
      Delta.weight (·.load.high) dss.flatten ≤ 2 ^ 32 * bs.length ∧
      Delta.weight Delta.overlap dss.flatten ≤ 2 * bs.length := by
  induction bs generalizing dss with
  | nil =>
    cases made
    simp [Delta.weight]
  | cons b bs ih =>
    rw [List.mapM_cons] at made
    obtain ⟨ds, first, made⟩ := bind_eq_ok_iff.1 made
    obtain ⟨rest, later, made⟩ := bind_eq_ok_iff.1 made
    cases made
    have own := ActivityBounds.weight_deltas_le (heights b List.mem_cons_self) first
    have others := ih (fun c mem => heights c (List.mem_cons_of_mem _ mem)) later
    simp only [List.flatten_cons, Delta.weight_append, List.length_cons]
    omega

/-- The changes of fewer than `2 ^ 30` activities can be summed up in any order. -/
theorem changesFit {bs : List ActivityBounds} (heights : ∀ b ∈ bs, b.HeightsHold)
    (few : bs.length < 2 ^ 30) : ChangesFit bs := by
  obtain ⟨dss, made⟩ := exists_mapM_of_forall fun b mem =>
    ActivityBounds.exists_deltas (heights b mem).abs_height_le
  obtain ⟨low, high, overlap⟩ := weight_flatten_le heights made
  exact ⟨dss, made, fun before after perm => ⟨Delta.holds_sum_of_weight (by omega) perm,
    Delta.holds_sum_of_weight (by omega) perm, Delta.holds_sum_of_weight (by omega) perm⟩⟩

end Profile

/-! ## Checked sums -/

/-- `Fit.add`, with every sum checked. -/
def Fit.addChecked (f : Fit) (allowed : Load) (heightMin heightMax start stop : Int) :
    Except Fault Fit := do
  if allowed.low ≤ heightMax && allowed.high ≥ heightMin then
    let hull := match f.heights with
      | none => allowed
      | some heights => ⟨min heights.low allowed.low, max heights.high allowed.high⟩
    let run ← Width.w64.add f.current (← Width.w64.sub stop start)
    return ⟨some hull, max f.longest run, run⟩
  else return { f with current := 0 }

theorem Fit.addChecked_eq_ok {f : Fit} {start stop : Int}
    (difference : Width.w64.Holds (stop - start))
    (sum : Width.w64.Holds (f.current + (stop - start))) (allowed : Load)
    (heightMin heightMax : Int) : f.addChecked allowed heightMin heightMax start stop =
      .ok (f.add allowed heightMin heightMax start stop) := by
  unfold addChecked add
  simp only [Width.sub_eq_ok_iff.2 ⟨difference, rfl⟩, Width.add_eq_ok_iff.2 ⟨sum, rfl⟩, bind,
    Except.bind]
  split <;> rfl

namespace TimeTable.Checked

/-- `TimeTable.fitFrom`, with every sum checked. -/
def fitFrom (t : TimeTable) (a : ActivityBounds) (windowStart windowEnd heightMin heightMax : Int) :
    (left segment : Nat) → Fit → Except Fault Fit
  | 0, _, f => return f
  | left + 1, segment, f => do
    let (start, stop) ← t.profile.span segment
    if start ≥ windowEnd then return f
    let others ← t.loadWithout a segment
    let allowed ← t.capacity.allowedHeights others
    let f ← f.addChecked allowed heightMin heightMax (max start windowStart) (min stop windowEnd)
    fitFrom t a windowStart windowEnd heightMin heightMax left (segment + 1) f

end TimeTable.Checked

/-! ## A profile that has passed the test -/

/-- The time lies within the horizon. -/
def WithinHorizon (time : Int) : Prop := -horizon ≤ time ∧ time ≤ horizon

namespace TimeTable

/-- The sweeps and the fit of an activity do not fault, and with every sum checked they give the
same answers. -/
structure InWords (t : TimeTable) (b : ActivityBounds) : Prop where
  start : ∃ r, t.earliestStart b = .ok r ∧ Checked.earliestStart t b = .ok r
  stop : ∃ r, t.latestEnd b = .ok r ∧ Checked.latestEnd t b = .ok r
  fit : ∀ windowStart windowEnd heightMin heightMax, b.startMin ≤ windowStart →
    windowStart < windowEnd → windowEnd ≤ b.endMax → ∃ f,
      t.fitFrom b windowStart windowEnd heightMin heightMax
          (t.profile.segments - t.profile.segmentContaining windowStart)
          (t.profile.segmentContaining windowStart) ⟨none, 0, 0⟩ = .ok f ∧
        Checked.fitFrom t b windowStart windowEnd heightMin heightMax
          (t.profile.segments - t.profile.segmentContaining windowStart)
          (t.profile.segmentContaining windowStart) ⟨none, 0, 0⟩ = .ok f

/-- The profile of few captured activities has passed the test. -/
structure Tested (t : TimeTable) (cs : List Captured) : Prop where
  represents : t.profile.Represents (cs.map Captured.bounds)
  times : ∀ q ∈ t.profile.points.toList, WithinHorizon q.time
  allows : ∃ a : Assignment, ∀ c ∈ cs, c.Allows a
  few : cs.length < 2 ^ 30
  accepted : t.capacity.Accepted
  consistent : t.profile.isConsistent t.capacity.minimum t.capacity.maximum = true

theorem tested_of_build {cs : List Captured} {capacity : Capacity} {profile : Profile}
    {a : Assignment} (allows : ∀ c ∈ cs, c.Allows a) (few : cs.length < 2 ^ 30)
    (accepted : capacity.Accepted)
    (made : Profile.build (cs.map Captured.bounds) = .ok profile)
    (consistent : profile.isConsistent capacity.minimum capacity.maximum = true) :
    Tested ⟨profile, capacity⟩ cs := by
  refine ⟨Profile.represents_of_build (fun b mem => ?_) made, fun q mem => ?_, ⟨a, allows⟩, few,
    accepted, consistent⟩
  · obtain ⟨c, mem', rfl⟩ := List.mem_map.1 mem
    exact (allows c mem').ordered
  · obtain ⟨b, inside, changes⟩ := (Profile.exists_point_iff made).1 ⟨q, mem, rfl⟩
    obtain ⟨c, mem', rfl⟩ := List.mem_map.1 inside
    have settled := (allows c mem').settled
    obtain ⟨le, ge⟩ := ActivityBounds.ChangesAt.between settled changes
    exact ⟨settled.horizon_le.trans le, ge.trans settled.le_horizon⟩

namespace Tested

variable {t : TimeTable} {cs : List Captured} {c : Captured} (h : t.Tested cs) (mem : c ∈ cs)
include h mem

theorem settled : c.bounds.toBounds.Settled := by
  obtain ⟨a, allows⟩ := h.allows
  exact (allows c mem).settled

/-- The loads of the others, and the heights of the activity, are far within their words. -/
theorem size_others (time : Int) :
    (-(2 ^ 62) ≤ (Profile.loadAt (cs.map Captured.bounds) time).low -
        (c.bounds.contributionAt time).low ∧
      (Profile.loadAt (cs.map Captured.bounds) time).low -
        (c.bounds.contributionAt time).low ≤ 2 ^ 62) ∧
    -(2 ^ 62) ≤ (Profile.loadAt (cs.map Captured.bounds) time).high -
        (c.bounds.contributionAt time).high ∧
      (Profile.loadAt (cs.map Captured.bounds) time).high -
        (c.bounds.contributionAt time).high ≤ 2 ^ 62 := by
  obtain ⟨a, allows⟩ := h.allows
  have loads := Profile.size_loadAt allows time
  have own := (allows c mem).size_contributionAt time
  have few := h.few
  omega

theorem othersFit : Profile.OthersFit (cs.map Captured.bounds) c.bounds := by
  constructor <;> intro time <;> have := h.size_others mem time <;>
    simp only [Width.Holds, Width.least, Width.greatest] <;> omega

theorem totalsFit : Profile.TotalsFit (cs.map Captured.bounds) c.bounds := by
  obtain ⟨a, allows⟩ := h.allows
  obtain ⟨⟨l1, l2⟩, u1, u2⟩ := (allows c mem).heights
  constructor <;> intro time <;> have := h.size_others mem time <;>
    simp only [Width.Holds, Width.least, Width.greatest] at * <;> omega

/-- What the others leave of the capacity fits a word: where something certainly executes, the load
has passed the test, and elsewhere the others may contribute nothing. -/
theorem marginsFit : Profile.MarginsFit t.capacity (cs.map Captured.bounds) c.bounds := by
  intro time
  obtain ⟨a, allows⟩ := h.allows
  have size := h.size_others mem time
  have own := (allows c mem).size_contributionAt time
  obtain ⟨m1, m2, m3, m4⟩ := h.accepted
  simp only [Capacity.unlimitedMinimum, Capacity.unlimitedMaximum] at m1 m4
  have upper : t.capacity.minimum - ((Profile.loadAt (cs.map Captured.bounds) time).high -
      (c.bounds.contributionAt time).high) ≤ Width.w64.greatest := by
    by_cases idle : Profile.overlappingAt (cs.map Captured.bounds) time = 0
    · have := (Profile.others_of_overlappingAt_eq_zero mem idle).2
      omega
    · have ordered (b : ActivityBounds) (inside : b ∈ cs.map Captured.bounds) : b.Ordered := by
        obtain ⟨c', mem', rfl⟩ := List.mem_map.1 inside
        exact (allows c' mem').ordered
      obtain ⟨-, reaches⟩ := (h.represents.isConsistent_iff ordered _ _).1 h.consistent time
        (Profile.exists_of_overlappingAt_pos (by omega))
      simp only [Width.greatest]
      omega
  simp only [Width.Holds, Width.least, Width.greatest] at upper ⊢
  omega

/-- The loads of a segment without the activity leave some heights. -/
theorem exists_allowedHeights {k : Nat} {q : TimePoint} {stop : Int}
    (stretch : t.profile.Stretch k q stop) : ∃ others, t.loadWithout c.bounds k = .ok others ∧
      ∃ allowed, t.capacity.allowedHeights others = .ok allowed := by
  obtain ⟨load, -⟩ := h.represents.load_of_mem stretch.mem
  refine ⟨_, loadWithout_of_othersFit h.represents (h.othersFit mem) stretch, ?_⟩
  rcases t.capacity.allowedHeights_cases _ with allowed | ⟨overflows, -⟩
  · exact ⟨_, allowed⟩
  · refine absurd ?_ overflows
    rw [load]
    exact h.marginsFit mem q.time

/-- The times of the sweeps lie within the horizon. -/
theorem timesFit (room : c.bounds.startMin < c.bounds.endMax) : c.bounds.TimesFit := by
  have settled := h.settled mem
  have first := settled.horizon_le
  have last := settled.le_horizon
  refine ActivityBounds.timesFit_of_attained settled.attained room ?_ ?_ <;>
    simp only [horizon, Width.Holds, Width.least, Width.greatest] at * <;> omega

omit mem in
/-- A segment lies between two times within the horizon. -/
theorem withinHorizon_of_stretch {k : Nat} {q : TimePoint} {stop : Int}
    (stretch : t.profile.Stretch k q stop) : WithinHorizon q.time ∧ WithinHorizon stop := by
  obtain ⟨r, next, rfl⟩ := stretch.exists_next
  exact ⟨h.times q stretch.mem, h.times r (List.mem_of_getElem? next)⟩

/-- The fit over a window. The current run is no longer than the part of the window that has been
looked at. -/
theorem exists_fitFrom {windowStart windowEnd : Int} (near : WithinHorizon windowStart)
    (near' : WithinHorizon windowEnd) (nonempty : windowStart < windowEnd)
    (heightMin heightMax : Int) {left k : Nat} {f : Fit}
    (within : k + left = t.profile.segments) (nonneg : 0 ≤ f.current)
    (here : ∀ q stop, t.profile.Stretch k q stop → windowStart < stop ∧
      f.current ≤ max windowStart q.time - windowStart) :
    ∃ f', t.fitFrom c.bounds windowStart windowEnd heightMin heightMax left k f = .ok f' ∧
      Checked.fitFrom t c.bounds windowStart windowEnd heightMin heightMax left k f = .ok f' := by
  induction left generalizing k f with
  | zero => exact ⟨f, rfl, rfl⟩
  | succ left ih =>
    obtain ⟨q, stop, stretch⟩ := Profile.exists_stretch h.represents.ascending
      (show k < t.profile.segments by omega)
    obtain ⟨after, run⟩ := here q stop stretch
    obtain ⟨others, without, allowed, left'⟩ := h.exists_allowedHeights mem stretch
    obtain ⟨first, last⟩ := h.withinHorizon_of_stretch stretch
    have order := stretch.lt
    simp only [TimeTable.fitFrom, Checked.fitFrom, stretch.span, bind, Except.bind]
    split
    · exact ⟨f, rfl, rfl⟩
    rename_i before
    have difference : Width.w64.Holds (min stop windowEnd - max q.time windowStart) := by
      simp only [WithinHorizon, horizon] at *
      simp only [Width.Holds, Width.least, Width.greatest]
      omega
    have sum : Width.w64.Holds (f.current + (min stop windowEnd - max q.time windowStart)) := by
      simp only [WithinHorizon, horizon] at *
      simp only [Width.Holds, Width.least, Width.greatest]
      omega
    simp only [without, left', Fit.addChecked_eq_ok difference sum]
    refine ih (by omega) ?_ fun r stop' stretch' => ?_
    · unfold Fit.add
      split <;> simp only <;> omega
    · have next := stretch.next stretch'
      have := stretch'.lt
      refine ⟨by omega, ?_⟩
      unfold Fit.add
      split <;> simp only <;> omega

/-- What is computed for an activity fits its words. -/
theorem inWords (room : c.bounds.startMin < c.bounds.endMax) : t.InWords c.bounds := by
  have inside := List.mem_map_of_mem (f := Captured.bounds) mem
  obtain ⟨s1, s2, s3, s4, s5, s6, s7, s8, s9, s10, s11, s12⟩ := h.settled mem
  have near {time : Int} (le : c.bounds.startMin ≤ time) (ge : time ≤ c.bounds.endMax) :
      WithinHorizon time := ⟨by omega, by omega⟩
  obtain ⟨start, stop⟩ := checked_eq h.represents inside room (h.othersFit mem) (h.totalsFit mem)
    (h.timesFit mem room)
  refine ⟨?_, ?_, fun windowStart windowEnd heightMin heightMax le nonempty ge => ?_⟩
  · obtain ⟨r, found, -⟩ := earliestStart_spec h.represents inside room (h.othersFit mem)
    exact ⟨r, found, start.trans found⟩
  · obtain ⟨r, found, -⟩ := latestEnd_spec h.represents inside room (h.othersFit mem)
    exact ⟨r, found, stop.trans found⟩
  · obtain ⟨⟨first, mem₁, eq₁⟩, ⟨last, mem₂, eq₂⟩, -⟩ := h.represents.changes _ inside room
    obtain ⟨lt, q, stop, stretch, before, after⟩ := Profile.segmentContaining_spec
      h.represents.ascending (t := windowStart) ⟨first, mem₁, by omega⟩ ⟨last, mem₂, by omega⟩
    refine h.exists_fitFrom mem (near le (by omega)) (near (by omega) ge) nonempty _ _ (by omega)
      (Int.le_refl 0) fun r stop' stretch' => ?_
    obtain ⟨rfl, rfl⟩ := stretch.unique stretch'
    exact ⟨after, by simp only; omega⟩

end Tested

end TimeTable

end Scheduling
