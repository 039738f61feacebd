import Scheduling.Cumulative.TimeTable
import Scheduling.Proofs.Cumulative.Profile
import Scheduling.Proofs.PartialSums
import Scheduling.Satisfaction

/-!
# Levels and loads

An assignment within the domains places every activity within its captured bounds. So the level at
a time lies within the load of the profile, also after one activity is taken out, and if all
activities are fixed it is the load.

Results:
* `ActivityBounds.Allows`, `Activity.allows_of_bounds`: what captured bounds say of an assignment.
* `ActivityBounds.Allows.low_le`, `ActivityBounds.Allows.le_high`: contributions lie within bounds.
* `Profile.level_mem_loadAt`, `Profile.others_mem_loadAt`: so do levels.
* `Profile.loadAt_of_exact`: the load of activities that are fixed.
-/

namespace Scheduling

/-! ## Single activities -/

namespace ActivityBounds

/-- The heights are words. -/
structure HeightsHold (b : ActivityBounds) : Prop where
  min : Width.w32.Holds b.heightMin
  max : Width.w32.Holds b.heightMax

instance (b : ActivityBounds) : Decidable b.HeightsHold :=
  decidable_of_iff (Width.w32.Holds b.heightMin ∧ Width.w32.Holds b.heightMax)
    ⟨fun h => ⟨h.1, h.2⟩, fun h => ⟨h.1, h.2⟩⟩

/-- The value of the interval and the height lie within the bounds. -/
structure Allows (b : ActivityBounds) (value : IntervalValue) (height : Int) : Prop where
  settled : b.toBounds.Settled
  heights : b.HeightsHold
  absent : value = .absent → b.isPresent = false
  placed : ∀ start length, value = .placed start length → b.toBounds.Admits start length
  le_height : b.heightMin ≤ height
  height_le : height ≤ b.heightMax

/-- The activity is present with a known start, end and height. -/
structure Exact (b : ActivityBounds) : Prop where
  present : b.isPresent = true
  start : b.startMin = b.startMax
  stop : b.endMin = b.endMax
  height : b.heightMin = b.heightMax

namespace Allows

variable {b : ActivityBounds} {value : IntervalValue} {height t : Int}

theorem ordered (h : b.Allows value height) : b.Ordered := ⟨h.settled.start_le, h.settled.end_le⟩

/-- An activity executes only between its earliest start and its latest end. -/
theorem between (h : b.Allows value height) (executes : value.executesAt t = true) :
    b.startMin ≤ t ∧ t < b.endMax := by
  cases value with
  | absent => simp [IntervalValue.executesAt] at executes
  | placed start length =>
    have admits := h.placed start length rfl
    simp only [IntervalValue.executesAt, Bool.and_eq_true, decide_eq_true_eq] at executes
    exact ⟨Int.le_trans admits.startMin_le executes.1, Int.lt_of_lt_of_le executes.2 admits.le_endMax⟩

/-- Where an activity certainly executes, it does. -/
theorem executesAt_of_isMandatoryAt (h : b.Allows value height) (certain : b.isMandatoryAt t = true) :
    value.executesAt t = true := by
  obtain ⟨mandatory, begun, upTo⟩ := isMandatoryAt_eq_true_iff.1 certain
  cases value with
  | absent =>
    have present := (hasMandatoryPart_eq_true_iff.1 mandatory).1
    simp [h.absent rfl] at present
  | placed start length =>
    have admits := h.placed start length rfl
    simp only [IntervalValue.executesAt, Bool.and_eq_true, decide_eq_true_eq]
    exact ⟨Int.le_trans admits.le_startMax begun, Int.lt_of_lt_of_le upTo admits.endMin_le⟩

theorem contribution_between (h : b.Allows value height) :
    (b.contributionAt t).low ≤ (if value.executesAt t then height else 0) ∧
      (if value.executesAt t then height else 0) ≤ (b.contributionAt t).high := by
  have low := h.le_height
  have high := h.height_le
  unfold contributionAt
  split
  · rename_i certain
    rw [if_pos (h.executesAt_of_isMandatoryAt certain)]
    exact ⟨low, high⟩
  · split
    · simp only [possible]
      split <;> omega
    · rename_i outside
      have idle : ¬ value.executesAt t = true := fun executes => by
        have := h.between executes
        simp [this.1, this.2] at outside
      rw [if_neg idle]
      exact ⟨Int.le_refl _, Int.le_refl _⟩

/-- The contribution of an activity that is fixed is known, and it certainly executes where it
does. -/
theorem of_exact (h : b.Allows value height) (exact : b.Exact) :
    b.contributionAt t = ⟨if value.executesAt t then height else 0,
      if value.executesAt t then height else 0⟩ ∧
      (value.executesAt t = true → b.isMandatoryAt t = true) := by
  obtain ⟨present, start, stop, same⟩ := exact
  cases value with
  | absent => simp [h.absent rfl] at present
  | placed s l =>
    obtain ⟨a1, a2, a3, a4, -, -⟩ := h.placed s l rfl
    have low := h.le_height
    have high := h.height_le
    have certain : b.isMandatoryAt t = (IntervalValue.placed s l).executesAt t := by
      rw [Bool.eq_iff_iff, isMandatoryAt_eq_true_iff, hasMandatoryPart_eq_true_iff]
      simp only [IntervalValue.executesAt, Bool.and_eq_true, decide_eq_true_eq, present, true_and]
      omega
    refine ⟨?_, fun executes => certain ▸ executes⟩
    unfold contributionAt
    rw [certain]
    split
    · rw [mandatory, show b.heightMin = height by omega, show b.heightMax = height by omega]
    · rename_i idle
      simp only [IntervalValue.executesAt, Bool.and_eq_true, decide_eq_true_eq] at idle
      rw [if_neg]
      · rfl
      · simp only [Bool.and_eq_true, decide_eq_true_eq]
        omega

/-- Outside its bounds an activity contributes nothing. -/
theorem contributionAt_of_outside (h : b.Allows value height)
    (outside : t < b.startMin ∨ b.endMax ≤ t) :
    b.contributionAt t = ⟨if value.executesAt t then height else 0,
      if value.executesAt t then height else 0⟩ := by
  have idle : ¬ value.executesAt t = true := fun executes => by
    have := h.between executes
    omega
  have uncertain : ¬ b.isMandatoryAt t = true := fun certain => idle (h.executesAt_of_isMandatoryAt certain)
  unfold contributionAt
  rw [if_neg uncertain, if_neg idle, if_neg]
  · rfl
  · simp only [Bool.and_eq_true, decide_eq_true_eq]
    omega

/-- Heights bound the contribution. -/
theorem size_contributionAt (h : b.Allows value height) (t : Int) :
    -2147483648 ≤ (b.contributionAt t).low ∧ (b.contributionAt t).low ≤ 2147483647 ∧
      -2147483648 ≤ (b.contributionAt t).high ∧ (b.contributionAt t).high ≤ 2147483647 := by
  obtain ⟨⟨l1, l2⟩, u1, u2⟩ := h.heights
  simp only [Width.least, Width.greatest] at l1 l2 u1 u2
  unfold contributionAt
  split
  · exact ⟨l1, l2, u1, u2⟩
  · split
    · simp only [possible]
      omega
    · simp [Load.zero]

end Allows

/-- Where an activity need not execute, it may contribute nothing. -/
theorem zero_mem_contributionAt (b : ActivityBounds) {t : Int}
    (uncertain : b.isMandatoryAt t = false) :
    (b.contributionAt t).low ≤ 0 ∧ 0 ≤ (b.contributionAt t).high := by
  unfold contributionAt
  rw [if_neg (by simp [uncertain])]
  split
  · simp only [possible]
    omega
  · exact ⟨Int.le_refl _, Int.le_refl _⟩

end ActivityBounds

/-- What is computed as a bound of a variable is a word. -/
theorem Variable.holds_bound {d : Domains} {v : Variable} {side : Side} {value : Int}
    (wellFormed : d.WellFormed) (h : v.bound side d = .ok value) : Width.w32.Holds value := by
  obtain ⟨row, found⟩ := exists_row_of_bound h
  obtain ⟨fits, rfl⟩ := (bound_eq_ok_iff found (wellFormed.integer _ row found)).1 h
  exact fits.holds_eval

namespace Activity

variable {x : Activity} {d : Domains} {b : ActivityBounds}

/-- What is captured of an activity. -/
theorem bounds_eq_ok (h : x.bounds d = .ok b) :
    ∃ v, d.interval x.interval = .ok v ∧ b.toBounds = v.toBounds ∧
      x.height.lower d = .ok b.heightMin ∧ x.height.upper d = .ok b.heightMax ∧
      b.isPresent = v.isPresent ∧ x.isFixed d = .ok b.isFixed := by
  obtain ⟨v, row, h⟩ := bind_eq_ok_iff.1 h
  obtain ⟨lower, low, h⟩ := bind_eq_ok_iff.1 h
  obtain ⟨upper, high, h⟩ := bind_eq_ok_iff.1 h
  obtain ⟨fixed, known, h⟩ := bind_eq_ok_iff.1 h
  cases h
  exact ⟨v, row, rfl, low, high, rfl, known⟩

/-- The height lies between its bounds, which are words. -/
theorem height_between {low high : Int} {v : Variable} (wellFormed : d.WellFormed)
    (lower : v.lower d = .ok low) (upper : v.upper d = .ok high) {a : Assignment}
    (admits : d.Admits a) : Width.w32.Holds low ∧ Width.w32.Holds high ∧ low ≤ a.value v ∧
      a.value v ≤ high := by
  refine ⟨Variable.holds_bound wellFormed lower, Variable.holds_bound wellFormed upper, ?_⟩
  obtain ⟨row, found⟩ := Variable.exists_row_of_bound lower
  have rowWellFormed := wellFormed.integer _ row found
  obtain ⟨-, rfl⟩ := (Variable.bound_eq_ok_iff found rowWellFormed).1 lower
  obtain ⟨-, rfl⟩ := (Variable.bound_eq_ok_iff found rowWellFormed).1 upper
  exact v.eval_bounds (admits.integer _ row found)

theorem heightsHold_of_bounds (wellFormed : d.WellFormed) (h : x.bounds d = .ok b) :
    b.HeightsHold := by
  obtain ⟨v, row, -, lower, upper, -⟩ := bounds_eq_ok h
  exact ⟨Variable.holds_bound wellFormed lower, Variable.holds_bound wellFormed upper⟩

/-- Captured bounds allow every assignment within the domains. -/
theorem allows_of_bounds (wellFormed : d.WellFormed) (h : x.bounds d = .ok b) {a : Assignment}
    (admits : d.Admits a) : b.Allows (a.interval x.interval) (a.value x.height) := by
  obtain ⟨v, row, same, lower, upper, present, -⟩ := bounds_eq_ok h
  obtain ⟨-, -, le, ge⟩ := height_between wellFormed lower upper admits
  have inside := admits.interval _ v row
  refine ⟨same ▸ wellFormed.interval _ v row, heightsHold_of_bounds wellFormed h, fun absent => ?_,
    fun start length placed => ?_, le, ge⟩
  · rw [absent] at inside
    rw [present]
    simpa [Interval.isPresent, Interval.Admits] using inside
  · rw [placed] at inside
    exact same ▸ inside.2

/-- An activity that is fixed and not absent is present with a known start, end and height. -/
theorem exact_of_bounds (h : x.bounds d = .ok b) (fixed : b.isFixed = true)
    (there : ∀ v, d.interval x.interval = .ok v → v.isAbsent = false) : b.Exact := by
  obtain ⟨v, row, same, lower, upper, present, known⟩ := bounds_eq_ok h
  rw [fixed] at known
  simp only [isFixed, row, bind, Except.bind, there v row, Bool.false_eq_true, if_false] at known
  split at known
  · rename_i settled
    simp only [Bool.and_eq_true, Interval.isFixed, there v row, Bool.false_or, Bounds.isFixed,
      beq_iff_eq] at settled
    simp only [Variable.isFixed, lower, upper, bind, Except.bind, pure, Except.pure,
      Except.ok.injEq, beq_iff_eq] at known
    refine ⟨present.trans settled.1, ?_, ?_, known⟩
    · rw [same]
      exact settled.2.1
    · rw [same]
      exact settled.2.2
  · cases known

end Activity

/-! ## Levels -/

theorem Assignment.contribution_eq (a : Assignment) (t : Int) (x : Activity) :
    a.contribution t x =
      if (a.interval x.interval).executesAt t then a.value x.height else 0 := rfl

/-- The assignment lies within what was captured. -/
def Captured.Allows (c : Captured) (a : Assignment) : Prop :=
  c.bounds.Allows (a.interval c.activity.interval) (a.value c.activity.height)

/-- The activity executes at a time. -/
def Captured.ExecutesAt (c : Captured) (a : Assignment) (t : Int) : Prop :=
  (a.interval c.activity.interval).executesAt t = true

namespace Profile

variable {cs : List Captured} {a : Assignment}

theorem loadAt_captured (cs : List Captured) (t : Int) :
    loadAt (cs.map Captured.bounds) t =
      ⟨(cs.map fun c => (c.bounds.contributionAt t).low).sum,
        (cs.map fun c => (c.bounds.contributionAt t).high).sum⟩ := by
  simp [loadAt, Function.comp_def]

theorem level_captured (a : Assignment) (cs : List Captured) (t : Int) :
    a.level (cs.map Captured.activity) t = (cs.map fun c => a.contribution t c.activity).sum := by
  simp [Assignment.level, Function.comp_def]

/-- The level lies within the load. -/
theorem level_mem_loadAt (allows : ∀ c ∈ cs, c.Allows a) (t : Int) :
    (loadAt (cs.map Captured.bounds) t).low ≤ a.level (cs.map Captured.activity) t ∧
      a.level (cs.map Captured.activity) t ≤ (loadAt (cs.map Captured.bounds) t).high := by
  rw [loadAt_captured, level_captured]
  exact ⟨List.sum_le_sum fun c mem => (allows c mem).contribution_between.1,
    List.sum_le_sum fun c mem => (allows c mem).contribution_between.2⟩

/-- Without one activity the level lies within the load without its contribution. -/
theorem others_mem_loadAt (allows : ∀ c ∈ cs, c.Allows a) {c : Captured} (mem : c ∈ cs) (t : Int) :
    (loadAt (cs.map Captured.bounds) t).low - (c.bounds.contributionAt t).low ≤
        a.level (cs.map Captured.activity) t - a.contribution t c.activity ∧
      a.level (cs.map Captured.activity) t - a.contribution t c.activity ≤
        (loadAt (cs.map Captured.bounds) t).high - (c.bounds.contributionAt t).high := by
  rw [loadAt_captured, level_captured]
  exact ⟨sum_map_sub_le (f := fun c : Captured => (c.bounds.contributionAt t).low)
      (fun c mem => (allows c mem).contribution_between.1) mem,
    sum_map_sub_le (g := fun c : Captured => (c.bounds.contributionAt t).high)
      (fun c mem => (allows c mem).contribution_between.2) mem⟩

/-- Where only activities that are fixed can execute, the load is the level. -/
theorem loadAt_of_exact (allows : ∀ c ∈ cs, c.Allows a) {t : Int}
    (exact : ∀ c ∈ cs, c.bounds.Exact ∨ t < c.bounds.startMin ∨ c.bounds.endMax ≤ t) :
    loadAt (cs.map Captured.bounds) t =
      ⟨a.level (cs.map Captured.activity) t, a.level (cs.map Captured.activity) t⟩ := by
  have single (c : Captured) (mem : c ∈ cs) : c.bounds.contributionAt t =
      ⟨a.contribution t c.activity, a.contribution t c.activity⟩ := by
    rcases exact c mem with exact | outside
    · exact ((allows c mem).of_exact exact).1
    · exact (allows c mem).contributionAt_of_outside outside
  rw [loadAt_captured, level_captured]
  congr 2 <;> exact List.map_congr_left fun c mem => by rw [single c mem]

/-- An activity that certainly executes counts. -/
theorem overlappingAt_pos {bs : List ActivityBounds} {b : ActivityBounds} {t : Int} (mem : b ∈ bs)
    (certain : b.isMandatoryAt t = true) : 0 < overlappingAt bs t := by
  induction bs with
  | nil => cases mem
  | cons c bs ih =>
    simp only [overlappingAt, List.map_cons, List.sum_cons]
    rcases List.mem_cons.1 mem with rfl | mem
    · simp only [ActivityBounds.overlapAt, certain, if_true]
      omega
    · have := ih mem
      unfold overlappingAt at this
      omega

/-- If some activity counts, one certainly executes. -/
theorem exists_of_overlappingAt_pos {bs : List ActivityBounds} {t : Int}
    (pos : 0 < overlappingAt bs t) : ∃ b ∈ bs, b.isMandatoryAt t = true := by
  induction bs with
  | nil => simp [overlappingAt] at pos
  | cons c bs ih =>
    by_cases certain : c.isMandatoryAt t = true
    · exact ⟨c, List.mem_cons_self, certain⟩
    · simp only [overlappingAt, List.map_cons, List.sum_cons, ActivityBounds.overlapAt, certain,
        Bool.false_eq_true, if_false, Nat.zero_add] at pos
      obtain ⟨b, mem, certain'⟩ := ih pos
      exact ⟨b, List.mem_cons_of_mem _ mem, certain'⟩

/-- Where nothing certainly executes, all but one of the activities may contribute nothing. -/
theorem others_of_overlappingAt_eq_zero {c : Captured} (mem : c ∈ cs) {t : Int}
    (none : overlappingAt (cs.map Captured.bounds) t = 0) :
    (loadAt (cs.map Captured.bounds) t).low - (c.bounds.contributionAt t).low ≤ 0 ∧
      0 ≤ (loadAt (cs.map Captured.bounds) t).high - (c.bounds.contributionAt t).high := by
  have uncertain (c : Captured) (mem : c ∈ cs) : c.bounds.isMandatoryAt t = false := by
    cases certain : c.bounds.isMandatoryAt t with
    | false => rfl
    | true =>
      have := overlappingAt_pos (List.mem_map_of_mem mem) certain
      omega
  have low := sum_map_sub_le (f := fun c : Captured => (c.bounds.contributionAt t).low)
    (g := fun _ => 0) (fun c mem => (ActivityBounds.zero_mem_contributionAt _ (uncertain c mem)).1) mem
  have high := sum_map_sub_le (f := fun _ => 0)
    (g := fun c : Captured => (c.bounds.contributionAt t).high)
    (fun c mem => (ActivityBounds.zero_mem_contributionAt _ (uncertain c mem)).2) mem
  rw [loadAt_captured]
  simpa using And.intro low high

/-- The size of a load. -/
theorem size_loadAt (allows : ∀ c ∈ cs, c.Allows a) (t : Int) :
    -(2147483648 * (cs.length : Int)) ≤ (loadAt (cs.map Captured.bounds) t).low ∧
      (loadAt (cs.map Captured.bounds) t).low ≤ 2147483647 * (cs.length : Int) ∧
      -(2147483648 * (cs.length : Int)) ≤ (loadAt (cs.map Captured.bounds) t).high ∧
      (loadAt (cs.map Captured.bounds) t).high ≤ 2147483647 * (cs.length : Int) := by
  rw [loadAt_captured]
  simp only
  induction cs with
  | nil => simp
  | cons c cs ih =>
    have here := (allows c List.mem_cons_self).size_contributionAt t
    have rest := ih fun c mem => allows c (List.mem_cons_of_mem _ mem)
    simp only [List.map_cons, List.sum_cons, List.length_cons, Nat.cast_add, Nat.cast_one]
    omega

end Profile

end Scheduling
